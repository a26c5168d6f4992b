import Dlos.Library.Rounds
import Dlos.Kernel.Clock
import Dlos.Kernel.Ipc

/-!
# Rounds of the scheduler

The clock takes ticks from the process that runs, and `schedule` is called when it has none left; so
between two refills every runnable process is served once, for as many ticks as its priority says.
-/

namespace Dlos

open Program

/-! ## What `schedule` picks -/

/-- The runnable process with the most ticks runs, the first one on a tie. -/
structure Kernel.Picked (k : Kernel) : Prop where
  runs : k.Runs
  pos : 0 < (k.procTable k.pProcReady).ticks
  most : ∀ q, (k.procTable q).pFlags = 0 →
    (k.procTable q).ticks ≤ (k.procTable k.pProcReady).ticks
  first : ∀ q, (k.procTable q).pFlags = 0 →
    (k.procTable q).ticks = (k.procTable k.pProcReady).ticks → k.pProcReady ≤ q

/-- What a pass over a part of the table has found. -/
def Found (table : Pid → Proc) (l : List Pid) : Int × Option Pid → Prop
  | (n, none) => n = 0 ∧ ∀ q ∈ l, (table q).pFlags = 0 → (table q).ticks ≤ 0
  | (n, some p) => p ∈ l ∧ (table p).pFlags = 0 ∧ (table p).ticks = n ∧ 0 < n ∧
      ∀ q ∈ l, (table q).pFlags = 0 → (table q).ticks ≤ n ∧ ((table q).ticks = n → p ≤ q)

section

variable {k k' k₁ : Kernel} {table : Pid → Proc} {p q : Pid} {n : Int} {t : Pid → Int}

theorem found_foldl (l : List Pid) (h : l.Pairwise (· < ·)) :
    Found table l (l.foldl (fun best p =>
      if (table p).pFlags = 0 ∧ (table p).ticks > best.1 then ((table p).ticks, some p)
      else best) (0, none)) := by
  induction l using List.reverseRecOn with
  | nil => exact ⟨rfl, nofun⟩
  | append_singleton l a ih =>
    rw [List.pairwise_append] at h
    have ih := ih h.1
    rw [List.foldl_append, List.foldl_cons, List.foldl_nil]
    generalize l.foldl _ ((0 : Int), (none : Option Pid)) = best at ih ⊢
    obtain ⟨n, o⟩ := best
    have hlast (q : Pid) (hq : q ∈ l ++ [a]) : q ∈ l ∨ q = a := by simpa using hq
    split_ifs with ha
    · have hless := ha.2
      have hbest : 0 ≤ n ∧ ∀ q ∈ l, (table q).pFlags = 0 → (table q).ticks ≤ n := by
        cases o with
        | none => exact ⟨ih.1.ge, fun q hq hf => ih.1 ▸ ih.2 q hq hf⟩
        | some p => exact ⟨ih.2.2.2.1.le, fun q hq hf => (ih.2.2.2.2 q hq hf).1⟩
      refine ⟨by simp, ha.1, rfl, by omega, fun q hq hf => ?_⟩
      rcases hlast q hq with hq | rfl
      · have := hbest.2 q hq hf
        exact ⟨by omega, fun he => by omega⟩
      · exact ⟨le_rfl, fun _ => le_rfl⟩
    · have hnot (hf : (table a).pFlags = 0) : (table a).ticks ≤ n := not_lt.mp fun hlt => ha ⟨hf, hlt⟩
      cases o with
      | none =>
        refine ⟨ih.1, fun q hq hf => ?_⟩
        rcases hlast q hq with hq | rfl
        · exact ih.2 q hq hf
        · exact ih.1 ▸ hnot hf
      | some p =>
        obtain ⟨hmem, hp, hn, hpos, hall⟩ := ih
        refine ⟨List.mem_append_left _ hmem, hp, hn, hpos, fun q hq hf => ?_⟩
        rcases hlast q hq with hq | rfl
        · exact hall q hq hf
        · exact ⟨hnot hf, fun _ => (h.2.2 p hmem q (List.mem_singleton.mpr rfl)).le⟩

theorem found_mostTicks (table : Pid → Proc) :
    Found table (List.finRange (nrTasks + nrProcs)) (mostTicks table) :=
  found_foldl _ (List.pairwise_lt_finRange _)

theorem picked_of_mostTicks (h : mostTicks k.procTable = (n, some p)) :
    ({ k with pProcReady := p } : Kernel).Picked := by
  have hfound := found_mostTicks k.procTable
  rw [h] at hfound
  obtain ⟨-, hp, rfl, hpos, hall⟩ := hfound
  exact ⟨hp, hpos, fun q hq => (hall q (List.mem_finRange q) hq).1,
    fun q hq => (hall q (List.mem_finRange q) hq).2⟩

/-- The pass finds nobody: no runnable process has ticks left. -/
def Spent (table : Pid → Proc) (t : Pid → Int) : Prop := ∀ p, (table p).pFlags = 0 → t p ≤ 0

instance : Decidable (Spent table t) := inferInstanceAs (Decidable (∀ _, _ → _))

theorem spent_of_mostTicks (h : mostTicks table = (n, none)) :
    Spent table fun p => (table p).ticks := by
  have hfound := found_mostTicks table
  rw [h] at hfound
  exact fun p hp => hfound.2 p (List.mem_finRange p) hp

/-- The ticks of a process table are these; flags and priorities are as in another. -/
structure HasTicks (table table' : Pid → Proc) (t : Pid → Int) : Prop where
  pFlags : ∀ p, (table' p).pFlags = (table p).pFlags
  priority : ∀ p, (table' p).priority = (table p).priority
  ticks : ∀ p, (table' p).ticks = t p

/-- The ticks after a pass over the table: if nobody has any left, they are refilled. -/
def refilled (table : Pid → Proc) (t : Pid → Int) (p : Pid) : Int :=
  if Spent table t ∧ (table p).pFlags = 0 then (table p).priority else t p

theorem wp_schedule_picked {E : Halt → Kernel → Prop}
    (h : ∃ p, (k.procTable p).pFlags = 0 ∧ 0 < (k.procTable p).priority) :
    wp schedule (fun _ k' => k'.Picked ∧ HasTicks k.procTable k'.procTable
      (refilled k.procTable fun p => (k.procTable p).ticks)) E k := by
  rw [schedule, scheduleLoop, wp_bind, wp_get]
  split
  · rename_i n p hp
    have hpick := picked_of_mostTicks hp
    refine wp_modify.mpr ⟨hpick, fun _ => rfl, fun _ => rfl, fun q => ?_⟩
    have hne : ¬Spent k.procTable fun p => (k.procTable p).ticks := fun he =>
      absurd (he p hpick.runs) (not_le_of_gt hpick.pos)
    rw [refilled, if_neg fun hq => hne hq.1]
  · rename_i n hn
    have hspent := spent_of_mostTicks hn
    rw [wp_bind, wp_modify, scheduleLoop, wp_bind, wp_get]
    obtain ⟨q, hq, hpos⟩ := h
    split
    · rename_i n' p hp
      refine wp_modify.mpr ⟨picked_of_mostTicks hp, fun r => ?_, fun r => ?_, fun r => ?_⟩
      · rw [refill_eq]
      · rw [refill_eq]
      · simp only [refill_eq, refilled, hspent, true_and]
    · rename_i n' hn'
      have := spent_of_mostTicks hn' q
      simp only [refill_eq, hq, if_true, forall_const] at this
      omega

/-! ## What a clock interrupt does -/

/-- The ticks after one is taken from the process that runs, if it has any. -/
def charged (table : Pid → Proc) (ready p : Pid) : Int :=
  if p = ready ∧ (table p).ticks ≠ 0 then (table p).ticks - 1 else (table p).ticks

/-- An interrupt would wake TTY up. -/
def TtyWaits (table : Pid → Proc) : Prop :=
  (table taskTty).isReceiving ∧ ((table taskTty).pRecvfrom = interrupt ∨
    (table taskTty).pRecvfrom = anyTask)

theorem wp_informInt_awake {Q : Unit → Kernel → Prop} {E : Halt → Kernel → Prop}
    (h : ¬TtyWaits k.procTable) : wp (informInt taskTty) Q E k ↔
      Q () (k.setProc taskTty ({ · with hasIntMsg := 1 })) := by
  rw [TtyWaits] at h
  rw [informInt, wp_bind, wp_get, if_neg h]
  rfl

/-- A change of the ticks does not make TTY wait. -/
theorem ttyWaits_setTicks {f : Proc → Int} :
    TtyWaits (k.setProc p fun x => { x with ticks := f x }).procTable ↔ TtyWaits k.procTable := by
  rcases eq_or_ne p taskTty with rfl | hp
  · rw [TtyWaits, Kernel.setProc_self]
    rfl
  · rw [TtyWaits, Kernel.setProc_of_ne hp.symm]
    rfl

theorem refilled_of_pos (hrun : (table p).pFlags = 0) (hpos : 0 < t p) : refilled table t = t := by
  funext q
  rw [refilled, if_neg fun hq => ?_]
  exact absurd (hq.1 p hrun) (not_le_of_gt hpos)

namespace HasTicks

variable {table' table₁ : Pid → Proc} {u : Pid → Int}

theorem refilled_eq (h : HasTicks table table₁ t) : refilled table₁ u = refilled table u := by
  funext q
  have hspent : Spent table₁ u ↔ Spent table u := forall_congr' fun p => by rw [h.pFlags]
  rw [refilled, refilled, h.priority]
  exact if_congr (and_congr hspent (by rw [h.pFlags])) rfl rfl

theorem trans (h : HasTicks table table₁ t) (h' : HasTicks table₁ table' u) :
    HasTicks table table' u where
  pFlags p := (h'.pFlags p).trans (h.pFlags p)
  priority p := (h'.priority p).trans (h.priority p)
  ticks := h'.ticks

theorem hasIntMsg (h : HasTicks table k.procTable t) :
    HasTicks table (k.setProc p ({ · with hasIntMsg := 1 })).procTable t := by
  refine h.trans ⟨fun q => ?_, fun q => ?_, fun q => ?_⟩ <;> rcases eq_or_ne q p with rfl | hq
  · rw [Kernel.setProc_self]
  · rw [Kernel.setProc_of_ne hq]
  · rw [Kernel.setProc_self]
  · rw [Kernel.setProc_of_ne hq]
  · rw [Kernel.setProc_self, h.ticks]
  · rw [Kernel.setProc_of_ne hq, h.ticks]

theorem charged (h : (k.procTable p).ticks ≠ 0) : HasTicks k.procTable
    (k.setProc p fun x => { x with ticks := x.ticks - 1 }).procTable
    (Dlos.charged k.procTable p) := by
  refine ⟨fun q => ?_, fun q => ?_, fun q => ?_⟩ <;> rcases eq_or_ne q p with rfl | hq
  · rw [Kernel.setProc_self]
  · rw [Kernel.setProc_of_ne hq]
  · rw [Kernel.setProc_self]
  · rw [Kernel.setProc_of_ne hq]
  · rw [Kernel.setProc_self, Dlos.charged, if_pos ⟨rfl, h⟩]
  · rw [Kernel.setProc_of_ne hq, Dlos.charged, if_neg fun hc => hq hc.1]

theorem charged_zero (h : (table p).ticks = 0) : HasTicks table table (Dlos.charged table p) where
  pFlags _ := rfl
  priority _ := rfl
  ticks q := by
    rw [Dlos.charged, if_neg]
    rintro ⟨rfl, hq⟩
    exact hq h

end HasTicks

/-- The interrupt charges the process that runs; if that has no ticks left, another is picked. -/
theorem wp_clockHandler_charged {E : Halt → Kernel → Prop} (hrun : k.Runs) (hre : k.kReenter = 0)
    (hquiet : k.keyPressed ≠ 0 → ¬TtyWaits k.procTable)
    (hR : ∃ p, (k.procTable p).pFlags = 0 ∧ 0 < (k.procTable p).priority) :
    wp clockHandler (fun _ k' => HasTicks k.procTable k'.procTable
        (refilled k.procTable (charged k.procTable k.pProcReady)) ∧
      if 0 < charged k.procTable k.pProcReady k.pProcReady then k'.pProcReady = k.pProcReady
      else k'.Picked) E k := by
  have hend (k₁ : Kernel)
      (h : HasTicks k.procTable k₁.procTable (charged k.procTable k.pProcReady))
      (hready : k₁.pProcReady = k.pProcReady) (hre₁ : k₁.kReenter = 0) : wp (do
        let k ← get
        if k.kReenter ≠ 0 then pure ()
        else if (k.procTable k.pProcReady).ticks > 0 then pure ()
        else schedule)
      (fun _ k' => HasTicks k.procTable k'.procTable
          (refilled k.procTable (charged k.procTable k.pProcReady)) ∧
        if 0 < charged k.procTable k.pProcReady k.pProcReady then k'.pProcReady = k.pProcReady
        else k'.Picked) E k₁ := by
    rw [wp_bind, wp_get, if_neg (not_not.mpr hre₁), hready, h.ticks]
    split_ifs with hpos
    · rw [wp_pure, refilled_of_pos hrun hpos]
      exact ⟨h, hready⟩
    · obtain ⟨p, hp, hprio⟩ := hR
      have hticks : (fun p => (k₁.procTable p).ticks) = charged k.procTable k.pProcReady :=
        funext h.ticks
      refine (wp_schedule_picked ⟨p, (h.pFlags p).trans hp, (h.priority p).symm ▸ hprio⟩).mono
        (fun _ k' hk' => ⟨?_, hk'.1⟩) fun _ _ h => h
      rw [hticks, h.refilled_eq] at hk'
      exact h.trans hk'.2
  rw [clockHandler, wp_bind, wp_modify, wp_bind, wp_get, wp_bind, wp_onlyIf, wp_setProc]
  refine ⟨fun hticks => ?_, fun hticks => ?_⟩
  · have hcharged := HasTicks.charged hticks
    rw [wp_bind, wp_onlyIf]
    refine ⟨fun hkey => ?_, fun _ => hend _ hcharged rfl hre⟩
    refine (wp_informInt_awake ?_).mpr (hend _ hcharged.hasIntMsg rfl hre)
    exact mt ttyWaits_setTicks.mp (hquiet hkey)
  · have hcharged := HasTicks.charged_zero (not_not.mp hticks)
    rw [wp_bind, wp_onlyIf]
    refine ⟨fun hkey => ?_, fun _ => hend _ hcharged rfl hre⟩
    refine (wp_informInt_awake ?_).mpr (hend _ hcharged.hasIntMsg rfl hre)
    exact hquiet hkey

/-! ## Rounds -/

/-- What may happen between two interrupts while the runnable processes stay runnable and the others
stay blocked: everything that leaves the scheduler's data alone. The next interrupt comes when no
other is being served. -/
structure Kernel.Between (k k' : Kernel) : Prop where
  table : HasTicks k.procTable k'.procTable fun p => (k.procTable p).ticks
  ready : k'.pProcReady = k.pProcReady
  kReenter : k'.kReenter = 0
  quiet : k'.keyPressed ≠ 0 → ¬TtyWaits k'.procTable

/-- A call of `clock_handler`, from one state behind a call to the next. -/
def ClockCall (k k' : Kernel) : Prop := ∃ k₁, k.Between k₁ ∧ clockHandler k₁ = .ok () k'

/-- The next call takes a tick from a process. -/
def Kernel.Charges (k : Kernel) (p : Pid) : Prop :=
  k.pProcReady = p ∧ (k.procTable p).ticks ≠ 0

/-- The next call refills the ticks. -/
def Kernel.Refills (k : Kernel) : Prop := Spent k.procTable (charged k.procTable k.pProcReady)

/-- `schedule` has just refilled the ticks and picked a process. -/
structure Kernel.Refilled (k : Kernel) : Prop extends k.Picked where
  refilled : ∀ p, (k.procTable p).pFlags = 0 → (k.procTable p).ticks = (k.procTable p).priority

/-- The runnable processes. -/
def Kernel.runnable (k : Kernel) : Finset Pid :=
  Finset.univ.filter fun p => (k.procTable p).pFlags = 0

/-- The ticks a process gets in a round. -/
def Kernel.share (k : Kernel) (p : Pid) : Nat := (k.procTable p).priority.toNat

/-- Time `j` of a round: the ticks are what remains for each process, and the process that runs is
the one to be served. -/
structure Kernel.InRound (k : Kernel) (j : Nat) : Prop where
  ticks : ∀ p ∈ k.runnable, (k.procTable p).ticks = (Rounds.left k.runnable k.share j p : Nat)
  serves : Rounds.Serves k.runnable k.share j k.pProcReady

theorem Kernel.mem_runnable : p ∈ k.runnable ↔ (k.procTable p).pFlags = 0 := by
  simp [runnable]

theorem HasTicks.runnable_eq (h : HasTicks k.procTable k'.procTable t) :
    k'.runnable = k.runnable := by
  ext p
  rw [Kernel.mem_runnable, Kernel.mem_runnable, h.pFlags]

theorem HasTicks.share_eq (h : HasTicks k.procTable k'.procTable t) : k'.share = k.share := by
  funext p
  rw [Kernel.share, Kernel.share, h.priority]

/-- The process that is picked is the next one in the order of service. -/
theorem Kernel.Picked.next {u : Pid → Nat} (h : k.Picked)
    (hu : ∀ p ∈ k.runnable, (k.procTable p).ticks = (u p : Nat)) :
    Rounds.Next k.runnable u k.pProcReady := by
  have hready := Kernel.mem_runnable.mpr h.runs
  have hpos := h.pos
  rw [hu _ hready] at hpos
  refine ⟨hready, by omega, fun r hr => ?_, fun r hr he => ?_⟩
  · have := h.most r (Kernel.mem_runnable.mp hr)
    rw [hu r hr, hu _ hready] at this
    omega
  · refine h.first r (Kernel.mem_runnable.mp hr) ?_
    rw [hu r hr, hu _ hready, he]

theorem Kernel.Refilled.inRound (h : k.Refilled)
    (hpos : ∀ p ∈ k.runnable, 0 < (k.procTable p).priority) : k.InRound 0 := by
  have hticks : ∀ p ∈ k.runnable, (k.procTable p).ticks = (k.share p : Nat) := fun p hp => by
    have := hpos p hp
    rw [h.refilled p (mem_runnable.mp hp), share]
    omega
  refine ⟨fun p hp => ?_, Rounds.serves_zero (h.toPicked.next hticks)⟩
  rw [hticks p hp, Rounds.left_zero]

theorem Kernel.InRound.charges_iff {j : Nat} (h : k.InRound j) (hp : p ∈ k.runnable) :
    k.Charges p ↔ Rounds.start k.runnable k.share p ≤ j ∧
      j < Rounds.start k.runnable k.share p + k.share p := by
  constructor
  · rintro ⟨rfl, _⟩
    exact ⟨h.serves.start_le, h.serves.lt⟩
  · rintro ⟨hle, hlt⟩
    have hserved := h.serves.eq_of hp hle hlt
    have hleft := h.serves.left_pos
    rw [hserved] at hleft
    refine ⟨hserved, ?_⟩
    rw [h.ticks p hp]
    omega

theorem exists_clockHandler (hb : k.Between k₁) (hrun : k.Runs)
    (hpos : ∀ p ∈ k.runnable, 0 < (k.procTable p).priority) :
    ∃ k', clockHandler k₁ = .ok () k' ∧ HasTicks k.procTable k'.procTable
        (refilled k.procTable (charged k.procTable k.pProcReady)) ∧
      if 0 < charged k.procTable k.pProcReady k.pProcReady then k'.pProcReady = k.pProcReady
      else k'.Picked := by
  have hflags := hb.table.pFlags
  have hrun₁ : k₁.Runs := by
    rw [Kernel.Runs, hflags, hb.ready]
    exact hrun
  have hcharged : charged k₁.procTable k₁.pProcReady = charged k.procTable k.pProcReady := by
    funext p
    rw [charged, charged, hb.table.ticks, hb.ready]
  have h := wp_clockHandler_charged (E := fun _ _ => False) hrun₁ hb.kReenter hb.quiet
    ⟨k.pProcReady, (hflags _).trans hrun,
      (hb.table.priority _).symm ▸ hpos _ (Kernel.mem_runnable.mpr hrun)⟩
  rw [hcharged, hb.table.refilled_eq, hb.ready] at h
  cases hend : clockHandler k₁ with
  | ok _ k' =>
    obtain ⟨hticks, hready⟩ := (wp_of_ok hend).mp h
    exact ⟨k', rfl, hb.table.trans hticks, hready⟩
  | error => exact ((wp_of_error hend).mp h).elim

theorem ClockCall.hasTicks (h : ClockCall k k') (hrun : k.Runs)
    (hpos : ∀ p ∈ k.runnable, 0 < (k.procTable p).priority) :
    HasTicks k.procTable k'.procTable
        (refilled k.procTable (charged k.procTable k.pProcReady)) ∧
      if 0 < charged k.procTable k.pProcReady k.pProcReady then k'.pProcReady = k.pProcReady
      else k'.Picked := by
  obtain ⟨k₁, hb, hk'⟩ := h
  obtain ⟨k'', hk'', hres⟩ := exists_clockHandler hb hrun hpos
  obtain rfl : k' = k'' := by
    rw [hk'] at hk''
    injection hk''
  exact hres

theorem Kernel.InRound.charged_eq {j : Nat} (h : k.InRound j) (hp : p ∈ k.runnable) :
    charged k.procTable k.pProcReady p = (Rounds.left k.runnable k.share (j + 1) p : Nat) := by
  have hleft := h.serves.left_pos
  rw [h.serves.left_succ hp, charged, h.ticks p hp]
  split_ifs with hc hready hready
  · rw [hready]
    omega
  · exact absurd hc.1 hready
  · rw [hready] at hc ⊢
    exact absurd ⟨rfl, by omega⟩ hc
  · rfl

theorem Kernel.InRound.refills_iff {j : Nat} (h : k.InRound j) :
    k.Refills ↔ ∀ p ∈ k.runnable, Rounds.left k.runnable k.share (j + 1) p = 0 := by
  refine forall_congr' fun p => ?_
  rw [mem_runnable]
  refine imp_congr_right fun hp => ?_
  rw [h.charged_eq (mem_runnable.mpr hp)]
  omega

/-- A call of the handler moves the round on, or begins the next one. -/
theorem ClockCall.inRound {j : Nat} (h : ClockCall k k') (hj : k.InRound j)
    (hpos : ∀ p ∈ k.runnable, 0 < (k.procTable p).priority) :
    (k.Refills → k'.InRound 0) ∧ (¬k.Refills → k'.InRound (j + 1)) := by
  have hready := hj.serves.mem
  obtain ⟨hticks, hnext⟩ := h.hasTicks (Kernel.mem_runnable.mp hready) hpos
  have hmem (p : Pid) : p ∈ k'.runnable ↔ p ∈ k.runnable := by rw [hticks.runnable_eq]
  rw [hj.charged_eq hready] at hnext
  constructor
  · intro hrefills
    have hzero := hj.refills_iff.mp hrefills _ hready
    rw [hzero, if_neg (by decide)] at hnext
    refine Kernel.Refilled.inRound ⟨hnext, fun p hp => ?_⟩ fun p hp => ?_
    · rw [hticks.ticks, hticks.priority, refilled, if_pos ⟨hrefills, hticks.pFlags p ▸ hp⟩]
    · rw [hticks.priority]
      exact hpos p ((hmem p).mp hp)
  · intro hrefills
    have hleft (p : Pid) (hp : p ∈ k.runnable) : (k'.procTable p).ticks =
        (Rounds.left k.runnable k.share (j + 1) p : Nat) := by
      rw [hticks.ticks, refilled, if_neg fun hc => hrefills hc.1, hj.charged_eq hp]
    refine ⟨fun p hp => ?_, ?_⟩
    · rw [hleft p ((hmem p).mp hp), hticks.runnable_eq, hticks.share_eq]
    · rw [hticks.runnable_eq, hticks.share_eq]
      split_ifs at hnext with hmore
      · rw [hnext]
        have hstart := hj.serves.start_le
        rw [Rounds.left] at hmore
        exact ⟨hready, by omega, by omega⟩
      · have hmost := hnext.next fun p hp => hleft p ((hmem p).mp hp)
        rw [hticks.runnable_eq] at hmost
        exact hj.serves.next (by omega) hmost

end

/-! ## Runs of the clock -/

/-- What a run of `n` calls guarantees: calls return, ticks stay, and between two refills each runnable
process is charged as many ticks as its priority says, one after the other. -/
structure FairRun (k : Nat → Kernel) (n : Nat) : Prop where
  returns : ∀ k₁, (k n).Between k₁ → ∃ k', clockHandler k₁ = .ok () k'
  ticks : ∀ i < n, ∀ p, ((k (i + 1)).procTable p).ticks =
    refilled (k i).procTable (charged (k i).procTable (k i).pProcReady) p
  nonneg : ∀ i ≤ n, ∀ p, 0 ≤ ((k 0).procTable p).ticks → 0 ≤ ((k i).procTable p).ticks
  slice : ∀ b e, b ≤ e → e < n → (b = 0 ∨ ∃ i, b = i + 1 ∧ (k i).Refills) →
    (∀ i, b ≤ i → i < e → ¬(k i).Refills) → (k e).Refills →
    e + 1 = b + ∑ p ∈ (k 0).runnable, (k 0).share p ∧ ∀ p ∈ (k 0).runnable, ∃ a, b ≤ a ∧ a + (k 0).share p ≤ e + 1 ∧
      ∀ i, b ≤ i → i ≤ e → ((k i).Charges p ↔ a ≤ i ∧ i < a + (k 0).share p)

section

variable {k : Nat → Kernel} {n : Nat}

/-- Every state of a run is in a round, and the runnable processes and their priorities stay. -/
theorem run_inRound (hpos : ∀ p ∈ (k 0).runnable, 0 < ((k 0).procTable p).priority)
    (hfresh : (k 0).Refilled) (hrun : ∀ i < n, ClockCall (k i) (k (i + 1))) (i : Nat) (hi : i ≤ n) :
    (∃ j, (k i).InRound j) ∧
      ∃ t, HasTicks (k 0).procTable (k i).procTable t ∧
        ∀ p, 0 ≤ ((k 0).procTable p).ticks → 0 ≤ t p := by
  induction i with
  | zero => exact ⟨⟨0, hfresh.inRound hpos⟩, _, ⟨fun _ => rfl, fun _ => rfl, fun _ => rfl⟩, fun _ h => h⟩
  | succ i ih =>
    obtain ⟨⟨j, hj⟩, t, ht, hnonneg⟩ := ih (by omega)
    have hpos' : ∀ p ∈ (k i).runnable, 0 < ((k i).procTable p).priority := fun p hp => by
      rw [ht.priority]
      exact hpos p (ht.runnable_eq ▸ hp)
    have hcall := hrun i (by omega)
    obtain ⟨hnext, -⟩ := hcall.hasTicks (Kernel.mem_runnable.mp hj.serves.mem) hpos'
    have hround := hcall.inRound hj hpos'
    refine ⟨?_, _, ht.trans hnext, fun p hp => ?_⟩
    · by_cases hrefills : (k i).Refills
      · exact ⟨0, hround.1 hrefills⟩
      · exact ⟨j + 1, hround.2 hrefills⟩
    · have hp := ht.ticks p ▸ hnonneg p hp
      rw [refilled, charged]
      split_ifs with hfill
      · exact (hpos' p (Kernel.mem_runnable.mpr hfill.2)).le
      · omega
      · exact hp

theorem fairRun (hpos : ∀ p ∈ (k 0).runnable, 0 < ((k 0).procTable p).priority)
    (hfresh : (k 0).Refilled) (hrun : ∀ i < n, ClockCall (k i) (k (i + 1))) : FairRun k n := by
  have hstate := run_inRound hpos hfresh hrun
  have hpos' (i : Nat) (hi : i ≤ n) : ∀ p ∈ (k i).runnable, 0 < ((k i).procTable p).priority := by
    obtain ⟨-, t, ht, -⟩ := hstate i hi
    intro p hp
    rw [ht.priority]
    exact hpos p (ht.runnable_eq ▸ hp)
  have hruns (i : Nat) (hi : i ≤ n) : (k i).Runs := by
    obtain ⟨⟨j, hj⟩, -⟩ := hstate i hi
    exact Kernel.mem_runnable.mp hj.serves.mem
  refine ⟨fun k₁ hb => ?_, fun i hi p => ?_, fun i hi p hp => ?_, ?_⟩
  · obtain ⟨k', hk', -⟩ := exists_clockHandler hb (hruns n le_rfl) (hpos' n le_rfl)
    exact ⟨k', hk'⟩
  · exact ((hrun i hi).hasTicks (hruns i hi.le) (hpos' i hi.le)).1.ticks p
  · obtain ⟨-, t, ht, hnonneg⟩ := hstate i hi
    exact ht.ticks p ▸ hnonneg p hp
  · intro b e hbe hen hb hnone hrefills
    -- the round that begins at `b`
    have hround : ∀ i, b ≤ i → i ≤ e → (k i).InRound (i - b) := by
      intro i hbi
      induction i, hbi using Nat.le_induction with
      | base =>
        intro _
        rw [Nat.sub_self]
        rcases hb with rfl | ⟨i, rfl, hi⟩
        · exact hfresh.inRound hpos
        · obtain ⟨⟨j, hj⟩, -⟩ := hstate i (by omega)
          exact ((hrun i (by omega)).inRound hj (hpos' i (by omega))).1 hi
      | succ i hbi ih =>
        intro hie
        rw [Nat.sub_add_comm hbi]
        exact ((hrun i (by omega)).inRound (ih (by omega)) (hpos' i (by omega))).2
          (hnone i hbi (by omega))
    have hsame (i : Nat) (hi : i ≤ n) :
        (k i).runnable = (k 0).runnable ∧ (k i).share = (k 0).share := by
      obtain ⟨-, t, ht, -⟩ := hstate i hi
      exact ⟨ht.runnable_eq, ht.share_eq⟩
    have hend := hround e hbe le_rfl
    have hserves := hend.serves
    have hzero := hend.refills_iff.mp hrefills
    rw [(hsame e hen.le).1, (hsame e hen.le).2] at hzero hserves
    have hshare (p : Pid) (hp : p ∈ (k 0).runnable) : 0 < (k 0).share p := by
      have := hpos p hp
      rw [Kernel.share]
      omega
    refine ⟨?_, fun p hp => ?_⟩
    · rw [hserves.sum_eq hshare hzero]
      omega
    · refine ⟨b + Rounds.start (k 0).runnable (k 0).share p, by omega, ?_, fun i hbi hie => ?_⟩
      · have hleft := hzero p hp
        have := hshare p hp
        rw [Rounds.left] at hleft
        omega
      · rw [(hround i hbi hie).charges_iff ((hsame i (by omega)).1 ▸ hp), (hsame i (by omega)).1,
          (hsame i (by omega)).2]
        omega

/-- `schedule` ends and picks the runnable process with the most ticks, and in every run of the clock
the runnable processes are served in rounds. -/
theorem scheduler_fair :
    (∀ k : Kernel, (∃ p, (k.procTable p).pFlags = 0 ∧ 0 < (k.procTable p).priority) →
      (∀ p, 0 ≤ (k.procTable p).ticks) →
      wp schedule (fun _ k' => k'.Picked) (fun _ _ => False) k) ∧
    ∀ (k : Nat → Kernel) (n : Nat), (∀ p ∈ (k 0).runnable, 0 < ((k 0).procTable p).priority) →
      (k 0).Refilled → (∀ i < n, ClockCall (k i) (k (i + 1))) → FairRun k n :=
  ⟨fun _ h _ => (wp_schedule_picked h).mono (fun _ _ hk => hk.1) fun _ _ h => h,
    fun _ _ => fairRun⟩

end

/-- Two runnable processes, one with twice the priority of the other. -/
def roundStart : Kernel where
  procTable p :=
    if p = 5 then { ticks := 2, priority := 2 }
    else if p = 6 then { ticks := 1, priority := 1 }
    else { pFlags := freeSlot }
  pProcReady := 5
  ticks := 0
  keyPressed := 0
  kReenter := 0
  msgs _ := {}
  copies := []

/-- The clock alone. -/
def roundRun : Nat → Kernel
  | 0 => roundStart
  | i + 1 => (exec clockHandler (roundRun i)).1

theorem scheduler_fair_roundRun :
    wp schedule (fun _ k' => k'.Picked) (fun _ _ => False) roundStart ∧ FairRun roundRun 6 := by
  refine ⟨scheduler_fair.1 roundStart ⟨5, by decide, by decide⟩ (by decide),
    scheduler_fair.2 roundRun 6 (by decide) ⟨⟨rfl, by decide, by decide, by decide⟩, by decide⟩
      fun i hi => ?_⟩
  have hcalls : ∀ i < 6, (roundRun i).kReenter = 0 ∧ (roundRun i).keyPressed = 0 ∧
      (exec clockHandler (roundRun i)).2 = none := by
    decide +kernel
  obtain ⟨hre, hkey, hnone⟩ := hcalls i hi
  exact ⟨roundRun i, ⟨⟨fun _ => rfl, fun _ => rfl, fun _ => rfl⟩, rfl, hre, fun h => absurd hkey h⟩,
    ok_of_exec hnone⟩

end Dlos
