import Mathlib.Data.Fintype.Card
import Dlos.Library.Rendezvous
import Dlos.Kernel.Schedule

/-!
# The process table implements message passing

`Kernel.Implements k s`: the flags, pointers and linked queues of the process table say what the
abstract state `s` of processes with queues says. Every function of `proc.c` then does on the
table what the operation of the same purpose does on the abstract state.
-/

namespace Dlos

open Program Rendezvous

abbrev Ipc := Rendezvous.State Pid Addr

/-- How the source of a receive is written in `p_recvfrom`. -/
def sourceCode : Source Pid → Int
  | .any => anyTask
  | .interrupt => interrupt
  | .only p => p.val

def Proc.Implements (p : Proc) : Phase Pid Addr → Prop
  | .free => p.pFlags = freeSlot
  | .idle => p.pFlags = 0 ∧ p.pMsg = 0 ∧ p.pRecvfrom = noTask ∧ p.pSendto = noTask
  | .sending d b =>
    p.pFlags = sending ∧ p.pMsg = b ∧ b ≠ 0 ∧ p.pRecvfrom = noTask ∧ p.pSendto = d.val
  | .receiving src b =>
    p.pFlags = receiving ∧ p.pMsg = b ∧ b ≠ 0 ∧ p.pRecvfrom = sourceCode src ∧ p.pSendto = noTask

def Kernel.next (k : Kernel) (p : Pid) : Option Pid := (k.procTable p).nextSending

structure Kernel.Implements (k : Kernel) (s : Ipc) : Prop where
  proc : ∀ p, (k.procTable p).Implements (s.phase p)
  queue : ∀ d, Linked.Chain k.next (k.procTable d).qSending (s.queue d)
  pending : ∀ p, (k.procTable p).hasIntMsg ≠ 0 ↔ s.pending p
  flat : ∀ p : Pid, p.val < nrTasks + nrNativeProcs →
    ldtSegLinear (k.procTable p) indexLdtRw = 0

/-- The linear address of a process's buffer. -/
def Kernel.la (k : Kernel) (p : Pid) (va : Addr) : Addr :=
  ldtSegLinear (k.procTable p) indexLdtRw + va

section

variable {k : Kernel} {s : Ipc} {p q x d : Pid} {f g : Proc → Proc} {src : Source Pid} {b c : Addr}
  {ph : Phase Pid Addr} {proc : Proc} {Q : Unit → Kernel → Prop} {E : Halt → Kernel → Prop}

/-! ## Reading a changed kernel -/

@[simp] theorem Kernel.setProc_self : (k.setProc p f).procTable p = f (k.procTable p) := by
  simp [Kernel.setProc]

@[simp] theorem Kernel.setProc_of_ne (h : q ≠ p) :
    (k.setProc p f).procTable q = k.procTable q := by
  simp [Kernel.setProc, h]

@[simp] theorem Kernel.setProc_setProc : (k.setProc p f).setProc p g = k.setProc p (g ∘ f) := by
  simp [Kernel.setProc]

@[simp] theorem Kernel.setProc_msgs : (k.setProc p f).msgs = k.msgs := rfl

@[simp] theorem Kernel.setProc_copies : (k.setProc p f).copies = k.copies := rfl

@[simp] theorem Kernel.setProc_kReenter : (k.setProc p f).kReenter = k.kReenter := rfl

@[simp] theorem Kernel.setProc_pProcReady : (k.setProc p f).pProcReady = k.pProcReady := rfl

@[simp] theorem Kernel.setMsg_procTable {a : Addr} {m : Message} :
    (k.setMsg a m).procTable = k.procTable := rfl

@[simp] theorem Kernel.put_procTable {r : Copy} : (k.put r).procTable = k.procTable := rfl

@[simp] theorem Kernel.put_pProcReady {r : Copy} : (k.put r).pProcReady = k.pProcReady := rfl

@[simp] theorem Kernel.put_msgs {r : Copy} :
    (k.put r).msgs = Function.update k.msgs r.buf r.content := rfl

@[simp] theorem Kernel.put_copies {r : Copy} : (k.put r).copies = r :: k.copies := rfl

@[simp] theorem wp_setProc : wp (setProc p f) Q E k ↔ Q () (k.setProc p f) := Iff.rfl

theorem receiving_clear : receiving &&& ~~~receiving = 0 := by decide

theorem sending_clear : sending &&& ~~~sending = 0 := by decide

theorem set_sending : (0 : BitVec 32) ||| sending = sending := by decide

theorem set_receiving : (0 : BitVec 32) ||| receiving = receiving := by decide

/-! ## Reading a process that implements a phase -/

theorem sourceCode_ne_noTask : sourceCode src ≠ noTask := by
  cases src with
  | any => simp [sourceCode]
  | interrupt => decide
  | only p => exact p.val_lt.2.1.ne

theorem sourceCode_takes : sourceCode src = x.val ∨ sourceCode src = anyTask ↔ src.Takes x := by
  cases src with
  | any => simp [sourceCode, Source.Takes]
  | interrupt => 
    simp only [sourceCode, Source.Takes, iff_false, not_or]
    exact ⟨x.val_lt.2.2.ne, by decide⟩
  | only p => simp [sourceCode, Source.Takes, p.val_lt.1.ne, Fin.ext_iff, eq_comm]

theorem sourceCode_takesInterrupt :
    sourceCode src = interrupt ∨ sourceCode src = anyTask ↔ src.TakesInterrupt := by
  cases src with
  | any => simp [sourceCode, Source.TakesInterrupt]
  | interrupt => simp [sourceCode, Source.TakesInterrupt]
  | only p => simp [sourceCode, Source.TakesInterrupt, p.val_lt.1.ne, p.val_lt.2.2.ne']

theorem Proc.Implements.isSending (h : proc.Implements ph) :
    proc.isSending ↔ ∃ d b, ph = .sending d b := by
  cases ph <;> simp_all [Proc.Implements, Proc.isSending]

theorem Proc.Implements.isReceiving (h : proc.Implements ph) :
    proc.isReceiving ↔ ∃ src b, ph = .receiving src b := by
  cases ph <;> simp_all [Proc.Implements, Proc.isReceiving]

theorem Kernel.Implements.waits_eq (h : k.Implements s) :
    s.waits x = some d ↔ (k.procTable x).isSending ∧ (k.procTable x).pSendto = d.val := by
  have hx := h.proc x
  unfold State.waits
  cases hp : s.phase x with
  | sending e b =>
    rw [hp] at hx
    simp [hx.isSending, hx.2.2.2.2, Fin.ext_iff]
  | free => rw [hp] at hx; simp [hx.isSending]
  | idle => rw [hp] at hx; simp [hx.isSending]
  | receiving src b => rw [hp] at hx; simp [hx.isSending]

theorem Kernel.Implements.inbox_eq (h : k.Implements s) (hbox : s.inbox d x = some c) :
    ((k.procTable d).isReceiving ∧
      ((k.procTable d).pRecvfrom = x.val ∨ (k.procTable d).pRecvfrom = anyTask)) ∧
    (k.procTable d).pMsg = c ∧ c ≠ 0 := by
  obtain ⟨src, hd, ht⟩ := State.inbox_eq_some.mp hbox
  have hp := h.proc d
  rw [hd] at hp
  refine ⟨⟨hp.isReceiving.mpr ⟨src, c, rfl⟩, ?_⟩, hp.2.1, hp.2.2.1⟩
  rw [hp.2.2.2.1]
  exact sourceCode_takes.mpr ht

theorem Kernel.Implements.inbox_eq_none (h : k.Implements s) (hbox : s.inbox d x = none) :
    ¬ ((k.procTable d).isReceiving ∧
      ((k.procTable d).pRecvfrom = x.val ∨ (k.procTable d).pRecvfrom = anyTask)) := by
  rintro ⟨hr, hfrom⟩
  have hp := h.proc d
  obtain ⟨src, c, hd⟩ := hp.isReceiving.mp hr
  rw [hd] at hp
  rw [hp.2.2.2.1] at hfrom
  rw [State.inbox_eq_some.mpr ⟨src, hd, sourceCode_takes.mp hfrom⟩] at hbox
  exact Option.some_ne_none _ hbox

theorem pidOf_eq_some {i : Int} : pidOf i = some p ↔ i = p.val := by
  constructor
  · intro h
    unfold pidOf at h
    split at h
    · obtain rfl := Option.some.inj h
      simp only []
      omega
    · simp at h
  · rintro rfl
    exact pidOf_val

theorem procAt_val : procAt (p.val : Int) k = .ok p k := by
  rw [procAt, pidOf_val]
  rfl

@[simp] theorem wp_procAt {Q : Pid → Kernel → Prop} :
    wp (procAt (p.val : Int)) Q E k ↔ Q p k := wp_of_ok procAt_val

/-- Addresses are translated by the process's own segment. -/
@[simp] theorem Kernel.Implements.wp_va2la (h : k.Implements s) {va : Addr}
    {Q : Addr → Kernel → Prop} : wp (va2la p va) Q E k ↔ Q (k.la p va) k := by
  have hflat := h.flat p
  by_cases hp : p.val < nrTasks + nrNativeProcs
  · simp [va2la, linear, Kernel.la, hflat hp, wp_assert_of, hp]
  · simp [va2la, linear, Kernel.la, hp]

/-! ## Deadlock detection decides reachability among the senders -/

theorem deadlockLoop_eq (h : k.Implements s) (x d : Pid) (fuel : Nat) (p : Pid) :
    deadlockLoop x d fuel p k = match WaitGraph.walk s.waits x fuel p with
      | none => .error .diverge k
      | some false => .ok 0 k
      | some true => (do printPath x tableSize d; pure 1 : KM Int) k := by
  induction fuel generalizing p with
  | zero => rfl
  | succ fuel ih =>
    rw [deadlockLoop, WaitGraph.walk]
    refine (bind_of_ok (x := get) (s := k) rfl).trans ?_
    cases hw : s.waits p with
    | none =>
      have hns : ¬ (k.procTable p).isSending := by
        intro hs
        obtain ⟨e, b, hp⟩ := (h.proc p).isSending.mp hs
        simp [State.waits, hp] at hw
      rw [if_neg hns]
      rfl
    | some q =>
      obtain ⟨hs, hto⟩ := h.waits_eq.mp hw
      rw [if_pos hs, hto]
      by_cases hq : q = x
      · simp [hq]
      · have hq' : (q.val : Int) ≠ x.val := by simpa [Fin.ext_iff] using hq
        rw [if_neg hq']
        refine (bind_of_ok procAt_val).trans ?_
        simpa [hq] using ih q

/-- The walk that prints the cycle ends: it follows the path to `x`. -/
theorem printPath_eq (h : k.Implements s) (hs : WaitGraph.Acyclic s.waits) {fuel : Nat}
    (hp : WaitGraph.Reaches s.waits p x) (enough : WaitGraph.rank s.waits p < fuel) :
    printPath x fuel p k = .ok () k := by
  induction fuel generalizing p with
  | zero => omega
  | succ fuel ih =>
    obtain ⟨q, hq, hqx⟩ := WaitGraph.reaches_iff.mp hp
    obtain ⟨b, hb⟩ := State.waits_eq_some.mp hq
    have hproc := h.proc p
    rw [hb] at hproc
    have hmsg : (k.procTable p).pMsg ≠ 0 := by
      rw [hproc.2.1]
      exact hproc.2.2.1
    have hassert : assert "p->p_msg" ((k.procTable p).pMsg ≠ 0) k = .ok () k := by
      rw [assert, ensure, if_pos hmsg]
      rfl
    rw [printPath]
    refine (bind_of_ok (x := get) (s := k) rfl).trans ?_
    refine (bind_of_ok hassert).trans ?_
    rw [hproc.2.2.2.2]
    refine (bind_of_ok procAt_val).trans ?_
    by_cases hx : q = x
    · simp [hx]
      rfl
    · rw [if_pos hx]
      have := WaitGraph.rank_lt hs hq
      exact ih (hqx.resolve_left hx) (by omega)

open Classical in
/-- With fuel for every table entry the walk ends and its answer is reachability. -/
theorem deadlockLoop_of_acyclic (h : k.Implements s) (hs : WaitGraph.Acyclic s.waits) (x d : Pid)
    {fuel : Nat} (enough : tableSize ≤ fuel) :
    deadlockLoop x d fuel d k = .ok (if WaitGraph.Reaches s.waits d x then 1 else 0) k := by
  have hrank : WaitGraph.rank s.waits d < tableSize := by
    simpa using WaitGraph.rank_lt_card hs d
  obtain ⟨r, hr, hiff⟩ := WaitGraph.walk_eq hs x (hrank.trans_le enough)
  rw [deadlockLoop_eq h, hr]
  cases r with
  | false =>
    have hno : ¬ WaitGraph.Reaches s.waits d x := fun hreach => by simpa using hiff.mpr hreach
    simp [hno]
  | true =>
    have hreach := hiff.mp rfl
    rw [if_pos hreach]
    exact bind_of_ok (printPath_eq h hs hreach hrank)

open Classical in
theorem deadlock_eq (h : k.Implements s) (hs : WaitGraph.Acyclic s.waits) (x d : Pid) :
    deadlock x d k = .ok (if WaitGraph.Reaches s.waits d x then 1 else 0) k :=
  deadlockLoop_of_acyclic h hs x d (Nat.le_refl _)

/-! ## Changes of the table that the abstract state follows -/

/-- The kernel with other queue links. -/
def Kernel.relink (k : Kernel) (head next : Pid → Option Pid) : Kernel :=
  { k with procTable := fun p =>
      { k.procTable p with qSending := head p, nextSending := next p } }

def Kernel.head (k : Kernel) (p : Pid) : Option Pid := (k.procTable p).qSending

theorem Kernel.setProc_head {v : Option Pid} :
    k.setProc p ({ · with qSending := v }) = k.relink (Function.update k.head p v) k.next := by
  have : ∀ q, (k.setProc p ({ · with qSending := v })).procTable q =
      (k.relink (Function.update k.head p v) k.next).procTable q := by
    intro q
    by_cases hq : q = p
    · subst hq; simp [relink, next]
    · simp [relink, next, head, hq]
  simp only [Kernel.setProc, relink] at this ⊢
  rw [funext this]

theorem Kernel.setProc_next {v : Option Pid} :
    k.setProc p ({ · with nextSending := v }) = k.relink k.head (Function.update k.next p v) := by
  have : ∀ q, (k.setProc p ({ · with nextSending := v })).procTable q =
      (k.relink k.head (Function.update k.next p v)).procTable q := by
    intro q
    by_cases hq : q = p
    · subst hq; simp [relink, head]
    · simp [relink, next, head, hq]
  simp only [Kernel.setProc, relink] at this ⊢
  rw [funext this]

variable {h n h' n' : Pid → Option Pid}

@[simp] theorem Kernel.relink_relink : (k.relink h n).relink h' n' = k.relink h' n' := rfl

@[simp] theorem Kernel.head_relink : (k.relink h n).head = h := rfl

@[simp] theorem Kernel.next_relink : (k.relink h n).next = n := rfl

theorem Kernel.Implements.congr (hk : k.Implements s) {k' : Kernel}
    (same : k'.procTable = k.procTable) : k'.Implements s := by
  have hnext : k'.next = k.next := by
    funext q
    rw [Kernel.next, same, Kernel.next]
  refine ⟨?_, ?_, ?_, ?_⟩ <;> simp only [same, hnext]
  exacts [hk.proc, hk.queue, hk.pending, hk.flat]

theorem Kernel.next_setProc
    (hf : (f (k.procTable p)).nextSending = (k.procTable p).nextSending) :
    (k.setProc p f).next = k.next := by
  funext q
  by_cases hq : q = p
  · subst hq; simpa [Kernel.next] using hf
  · simp [Kernel.next, hq]

/-- Ticks and the choice of the running process do not matter. -/
theorem Kernel.Implements.retick (hk : k.Implements s) (t : Pid → Int) (p : Pid) :
    (k.retick t p).Implements s where
  proc q := by
    have := hk.proc q
    revert this
    cases s.phase q <;> exact id
  queue := hk.queue
  pending := hk.pending
  flat := hk.flat

theorem Kernel.Implements.relink (hk : k.Implements s) {queue : Pid → List Pid}
    (links : ∀ d, Linked.Chain n (h d) (queue d)) :
    (k.relink h n).Implements { s with queue := queue } where
  proc q := by
    have := hk.proc q
    revert this
    cases s.phase q <;> exact id
  queue := links
  pending := hk.pending
  flat := hk.flat

/-- A process changes its phase and its pending interrupt. -/
theorem Kernel.Implements.setProc (hk : k.Implements s) {P : Prop}
    (phase : (f (k.procTable p)).Implements ph)
    (links : (f (k.procTable p)).qSending = (k.procTable p).qSending ∧
      (f (k.procTable p)).nextSending = (k.procTable p).nextSending)
    (hint : (f (k.procTable p)).hasIntMsg ≠ 0 ↔ P)
    (ldts : (f (k.procTable p)).ldts = (k.procTable p).ldts) :
    (k.setProc p f).Implements ((s.setPhase p ph).setPending p P) where
  proc q := by
    by_cases hq : q = p
    · subst hq; simpa using phase
    · simpa [hq] using hk.proc q
  queue d := by
    rw [Kernel.next_setProc links.2]
    by_cases hd : d = p
    · subst hd; simpa [links.1] using hk.queue d
    · simpa [hd] using hk.queue d
  pending q := by
    by_cases hq : q = p
    · subst hq; simpa using hint
    · simpa [hq] using hk.pending q
  flat q hlt := by
    by_cases hq : q = p
    · subst hq; simpa [ldtSegLinear, ldts] using hk.flat q hlt
    · simpa [hq] using hk.flat q hlt

/-- A process changes its phase and nothing else. -/
theorem Kernel.Implements.setPhase (hk : k.Implements s)
    (phase : (f (k.procTable p)).Implements ph)
    (links : (f (k.procTable p)).qSending = (k.procTable p).qSending ∧
      (f (k.procTable p)).nextSending = (k.procTable p).nextSending)
    (hint : (f (k.procTable p)).hasIntMsg = (k.procTable p).hasIntMsg)
    (ldts : (f (k.procTable p)).ldts = (k.procTable p).ldts) :
    (k.setProc p f).Implements (s.setPhase p ph) := by
  have hset : (k.setProc p f).Implements ((s.setPhase p ph).setPending p (s.pending p)) :=
    hk.setProc phase links (by rw [hint]; exact hk.pending p) ldts
  rwa [← State.pending_setPhase (a := p) ph, State.setPending_self] at hset

theorem Kernel.Implements.setPending (hk : k.Implements s) {v : Int} {P : Prop}
    (hv : v ≠ 0 ↔ P) :
    (k.setProc p ({ · with hasIntMsg := v })).Implements (s.setPending p P) := by
  have phase : ({ k.procTable p with hasIntMsg := v } : Proc).Implements (s.phase p) := by
    have := hk.proc p
    revert this
    cases s.phase p <;> exact id
  have hset : (k.setProc p ({ · with hasIntMsg := v })).Implements
      ((s.setPhase p (s.phase p)).setPending p P) := hk.setProc phase ⟨rfl, rfl⟩ hv rfl
  rwa [State.setPhase_self] at hset

end

end Dlos
