import Dlos.Kernel.Clock
import Dlos.Kernel.Ipc

/-!
# Message passing refines its abstract operations

One specification for each function of `proc.c`: what it does to a kernel that implements a
well-formed state is what `send`, `receive` or `notify` does to the state, up to ticks and the
choice of the process to run.
-/

namespace Dlos

open Program Rendezvous

/-- What an effect does to memory and to the record of copies. -/
def Kernel.Moved (k : Kernel) : Effect Pid Addr → Kernel → Prop
  | .transfer x b d c, k' =>
    k'.msgs = Function.update k.msgs (k.la d c) (k.msgs (k.la x b)) ∧
    k'.copies = ⟨d, k.la d c, x.val, k.msgs (k.la x b)⟩ :: k.copies
  | .interrupt d c, k' =>
    ∃ m : Message, m.source = interrupt ∧ m.type = MsgType.hardInt ∧
      k'.msgs = Function.update k.msgs (k.la d c) m ∧
      k'.copies = ⟨d, k.la d c, interrupt, m⟩ :: k.copies
  | .deadlock, k' => k'.msgs = k.msgs ∧ k'.copies = k.copies
  | .blocked, k' => k'.msgs = k.msgs ∧ k'.copies = k.copies
  | .noted, k' => k'.msgs = k.msgs ∧ k'.copies = k.copies

/-- What message passing never changes. -/
structure Kernel.Frame (k k' : Kernel) : Prop where
  ldts : ∀ p, (k'.procTable p).ldts = (k.procTable p).ldts
  kReenter : k'.kReenter = k.kReenter
  keyPressed : k'.keyPressed = k.keyPressed

/-- A step of message passing led from `k` to `k'`, which implements the outcome. -/
structure Kernel.Passed (k : Kernel) (outcome : Ipc × Effect Pid Addr) (k' : Kernel) : Prop where
  implements : k'.Implements outcome.1
  moved : k.Moved outcome.2 k'
  frame : k.Frame k'

section

variable {k k' : Kernel} {s : Ipc} {p q x d who : Pid} {f g : Proc → Proc} {src : Source Pid}
  {m b c : Addr} {Q : Unit → Kernel → Prop} {E : Halt → Kernel → Prop}
  {outcome : Ipc × Effect Pid Addr}

theorem Kernel.Passed.retick (h : k.Passed outcome k') (t : Pid → Int) (p : Pid) :
    k.Passed outcome (k'.retick t p) where
  implements := h.implements.retick t p
  moved := by
    obtain ⟨s', e⟩ := outcome
    cases e <;> exact h.moved
  frame := ⟨h.frame.ldts, h.frame.kReenter, h.frame.keyPressed⟩

theorem Kernel.Frame.refl (k : Kernel) : k.Frame k := ⟨fun _ => rfl, rfl, rfl⟩

theorem Kernel.Frame.put (h : k.Frame k') (r : Copy) : k.Frame (k'.put r) :=
  ⟨h.ldts, h.kReenter, h.keyPressed⟩

theorem Kernel.Frame.relink (h : k.Frame k') (u v : Pid → Option Pid) : k.Frame (k'.relink u v) :=
  ⟨h.ldts, h.kReenter, h.keyPressed⟩

theorem Kernel.Frame.setProc (h : k.Frame k')
    (hf : (f (k'.procTable p)).ldts = (k'.procTable p).ldts) : k.Frame (k'.setProc p f) where
  ldts q := by
    by_cases hq : q = p
    · subst hq; simpa [hf] using h.ldts q
    · simpa [hq] using h.ldts q
  kReenter := h.kReenter
  keyPressed := h.keyPressed

theorem Kernel.Frame.la (h : k.Frame k') (va : Addr) : k'.la p va = k.la p va := by
  simp [Kernel.la, ldtSegLinear, h.ldts p]

theorem Kernel.Frame.trans {k'' : Kernel} (h : k.Frame k') (h' : k'.Frame k'') : k.Frame k'' where
  ldts p := (h'.ldts p).trans (h.ldts p)
  kReenter := h'.kReenter.trans h.kReenter
  keyPressed := h'.keyPressed.trans h.keyPressed

/-- A step may start after changes that message passing does not see. -/
theorem Kernel.Passed.after {k₁ : Kernel} (h : k₁.Passed outcome k') (hf : k.Frame k₁)
    (hmsgs : k₁.msgs = k.msgs) (hcopies : k₁.copies = k.copies) : k.Passed outcome k' where
  implements := h.implements
  moved := by
    obtain ⟨s', e⟩ := outcome
    have := h.moved
    cases e <;> simpa only [Kernel.Moved, hf.la, hmsgs, hcopies] using this
  frame := hf.trans h.frame

theorem wp_copyMessage {dst a : Addr} {i : Int} :
    wp (copyMessage p dst i a) Q E k ↔
      Q () (k.put ⟨p, dst, i, k.msgs a⟩) := Iff.rfl

/-- The sleep of a process that has just blocked. -/
theorem wp_block (hp : (k.procTable p).pFlags ≠ 0)
    (hok : ∀ t q, (k.procTable q).pFlags = 0 → Q () (k.retick t q))
    (herr : ∀ t, E .diverge (k.retick t k.pProcReady)) : wp (block p) Q E k := by
  rw [block, wp_bind, wp_get, wp_bind, wp_assert]
  exact ⟨fun _ => wp_schedule hok herr, fun h => absurd hp h⟩

theorem Kernel.Implements.runs (hk : k.Implements s) (h : s.phase k.pProcReady = .idle) :
    k.Runs := by
  have := hk.proc k.pProcReady
  rw [h] at this
  exact this.1

theorem Kernel.Implements.idle_of_runs (hk : k.Implements s) (h : k.Runs) :
    s.phase k.pProcReady = .idle := by
  have := hk.proc k.pProcReady
  rw [Kernel.Runs] at h
  cases hp : s.phase k.pProcReady with
  | idle => rfl
  | free => simp [hp, Proc.Implements, h] at this
  | sending d b => simp [hp, Proc.Implements, h] at this
  | receiving src b => simp [hp, Proc.Implements, h] at this

/-! ## Sending -/

theorem wp_deliver (hk : k.Implements s) (hx : s.phase x = .idle)
    (hbox : s.inbox d x = some c) (hm : m ≠ 0)
    (hok : ∀ k', k.Passed (s.setPhase d .idle, .transfer x m d c) k' →
      k'.pProcReady = k.pProcReady → Q () k') :
    wp (deliver x d m) Q E k := by
  obtain ⟨src, hd, -⟩ := State.inbox_eq_some.mp hbox
  have hne : x ≠ d := by
    rintro rfl
    simp [hd] at hx
  have hpd := hk.proc d
  have hpx := hk.proc x
  rw [hd] at hpd
  rw [hx] at hpx
  obtain ⟨hflags, rfl, hc, -, hto⟩ := hpd
  obtain ⟨hx₁, hx₂, hx₃, hx₄⟩ := hpx
  simp only [deliver, wp_bind, wp_get, wp_assert_of, hk.wp_va2la, wp_copyMessage, wp_setProc,
    unblock, assertReleased, Kernel.setProc_setProc, Kernel.setProc_self,
    Kernel.setProc_of_ne hne, Kernel.put_procTable, Function.comp, hflags, hto, hc, hm,
    receiving_clear, hx₁, hx₂, hx₃, hx₄, ne_eq, not_false_iff]
  refine hok _ ⟨?_, ⟨rfl, rfl⟩, ((Kernel.Frame.refl k).put _).setProc rfl⟩ rfl
  apply Kernel.Implements.setPhase (hk.congr (Kernel.put_procTable))
  · simp [Proc.Implements, hflags, hto]
  · exact ⟨rfl, rfl⟩
  · rfl
  · rfl

/-- The sender comes to stand at the end of the queue. -/
theorem wp_enqueue (hk : k.Implements s) (hxq : ∀ e, x ∉ s.queue e) (hnd : (s.queue d).Nodup)
    (hdisj : ∀ e, e ≠ d → ∀ y ∈ s.queue d, y ∉ s.queue e)
    (hok : ∀ u v, (∀ e, Linked.Chain v (u e)
      (Function.update s.queue d (s.queue d ++ [x]) e)) → Q () (k.relink u v)) :
    wp (enqueue x d) Q E k := by
  have other (e : Pid) (he : e ≠ d) {u v : Pid → Option Pid} (hu : u e = k.head e)
      (hv : ∀ y, y ∉ s.queue d → y ≠ x → v y = k.next y) :
      Linked.Chain v (u e) (Function.update s.queue d (s.queue d ++ [x]) e) := by
    rw [Function.update_of_ne he, hu]
    refine (hk.queue e).congr fun y hy => hv y (fun hyd => hdisj e he y hyd hy) ?_
    rintro rfl
    exact hxq e hy
  rw [enqueue, wp_bind, wp_get]
  have hchain := hk.queue d
  cases hq : s.queue d using List.reverseRecOn with
  | nil =>
    rw [hq] at hchain
    have hnone : (k.procTable d).qSending = none := hchain
    simp only [hnone, wp_bind, wp_setProc, Kernel.setProc_head, Kernel.setProc_next,
      Kernel.relink_relink, Kernel.head_relink, Kernel.next_relink]
    refine hok _ _ fun e => ?_
    by_cases he : e = d
    · subst he; simp [hq]
    · exact other e he (by simp [he]) fun y _ hy => by simp [hy]
  | append_singleton l a =>
    rw [hq] at hchain hnd
    obtain ⟨y, hy⟩ : ∃ y, (k.procTable d).qSending = some y := by
      cases l with
      | nil => exact ⟨a, hchain.1⟩
      | cons y l => exact ⟨y, hchain.1⟩
    rw [hy] at hchain
    have hlen : l.length < tableSize := by
      have := hnd.length_le_card
      exact Nat.lt_of_succ_le (by simpa using this)
    have hlast : Linked.last (fun q => (k.procTable q).nextSending) tableSize y = some a :=
      hchain.last_eq hlen
    have hne : x ≠ a := by
      rintro rfl
      exact hxq d (by simp [hq])
    simp only [hy, wp_bind, queueEnd, wp_get, hlast, wp_pure, wp_setProc, Kernel.setProc_next,
      Kernel.relink_relink, Kernel.head_relink, Kernel.next_relink]
    refine hok _ _ fun e => ?_
    by_cases he : e = d
    · subst he
      rw [Function.update_self, hq, Kernel.head, hy]
      refine hchain.append (by simp [hne.symm]) (by simp) fun b hb => ?_
      have hba : b ≠ a := by
        rintro rfl
        simp [List.nodup_append] at hnd
        exact hnd.2 b hb rfl
      have hbx : b ≠ x := by
        rintro rfl
        exact hxq e (by simp [hq, hb])
      simp [hba, hbx]
    · refine other e he rfl fun z hz hzx => ?_
      have hza : z ≠ a := by
        rintro rfl
        exact hz (by simp [hq])
      simp [hza, hzx]

theorem wp_awaitReceiver (hk : k.Implements s) (hs : s.WellFormed) (hx : s.phase x = .idle)
    (hm : m ≠ 0)
    (hok : ∀ k', k.Passed (s.enqueue x d m, .blocked) k' → k'.Runs → Q () k')
    (herr : ∀ k', k.Passed (s.enqueue x d m, .blocked) k' → E .diverge k') :
    wp (awaitReceiver x d m) Q E k := by
  have hpx := hk.proc x
  rw [hx] at hpx
  obtain ⟨hx₁, hx₂, hx₃, hx₄⟩ := hpx
  simp only [awaitReceiver, wp_bind, wp_get, wp_assert_of, wp_setProc, Kernel.setProc_setProc,
    Kernel.setProc_self, hx₁, set_sending]
  generalize hk₁ : k.setProc x _ = k₁
  have himp : k₁.Implements (s.setPhase x (.sending d m)) := by
    rw [← hk₁]
    apply hk.setPhase
    · exact ⟨by simp [hx₁], rfl, hm, hx₃, rfl⟩
    · exact ⟨rfl, rfl⟩
    · rfl
    · rfl
  have hframe : k.Frame k₁ := by
    rw [← hk₁]
    exact (Kernel.Frame.refl k).setProc rfl
  have hmem : k₁.msgs = k.msgs ∧ k₁.copies = k.copies := by
    rw [← hk₁]
    exact ⟨rfl, rfl⟩
  have hfields : (k₁.procTable x).pFlags = sending ∧ (k₁.procTable x).pMsg = m ∧
      (k₁.procTable x).pRecvfrom = noTask ∧ (k₁.procTable x).pSendto = d.val := by
    rw [← hk₁]
    simp [hx₁, hx₃]
  have hwaits := State.waits_of_idle hx
  refine wp_enqueue himp (fun e => hs.notMem hwaits) (hs.nodup d)
    (fun e he y hyd hye => ?_) fun u v hlinks => ?_
  · rw [State.queue_setPhase, hs.queued] at hyd hye
    exact he (by simpa [hyd] using hye.symm)
  · have hpassed : k.Passed (s.enqueue x d m, .blocked) (k₁.relink u v) :=
      ⟨himp.relink hlinks, hmem, hframe.relink u v⟩
    refine wp_block ?_ (fun t q hq => ?_) fun t => herr _ (hpassed.retick t _)
    · simp [Kernel.relink, hfields]
    · have hx' : ((k₁.relink u v).retick t q).procTable x =
          { k₁.procTable x with qSending := u x, nextSending := v x, ticks := t x } := rfl
      simp only [wp_assert_of, hx', hfields, hm, ne_eq, not_false_iff]
      exact hok _ (hpassed.retick t q) hq

/-- `msg_send` is `send`: it panics on a deadlock and sleeps when nobody waits. -/
theorem wp_msgSend {Q : Int → Kernel → Prop} (hk : k.Implements s) (hs : s.WellFormed)
    (hx : s.phase x = .idle) (hne : d ≠ x) (hm : m ≠ 0) (hrun : k.pProcReady = x)
    (hok : ∀ k', k.Passed (s.send x d m) k' → (s.send x d m).2 ≠ .deadlock → k'.Runs → Q 0 k')
    (hpanic : (s.send x d m).2 = .deadlock → E (.panic (">>DEADLOCK<< " ++
      (k.procTable x).name ++ "->" ++ (k.procTable d).name)) k)
    (hstuck : ∀ k', k.Passed (s.send x d m) k' → (s.send x d m).2 = .blocked → E .diverge k') :
    wp (msgSend x d.val m) Q E k := by
  have hne' : (x.val : Int) ≠ d.val := by simpa [Fin.ext_iff, eq_comm] using hne
  simp only [msgSend, wp_bind, wp_procAt, wp_assert_of hne', wp_of_ok (deadlock_eq hk hs.acyclic x d),
    wp_get, wp_onlyIf, wp_throw]
  unfold State.send at hok hpanic hstuck
  by_cases hreach : WaitGraph.Reaches s.waits d x
  · simp only [hreach, if_true] at hpanic ⊢
    simpa using hpanic
  · simp only [hreach, if_false] at hok hstuck ⊢
    refine ⟨fun h => absurd rfl h, fun _ => ?_⟩
    cases hbox : s.inbox d x with
    | some c =>
      simp only [hbox] at hok
      rw [if_pos (hk.inbox_eq hbox).1]
      rw [wp_bind]
      refine wp_deliver hk hx hbox hm fun k' hpassed hready => hok k' hpassed (by simp) ?_
      have hidle : (s.setPhase d .idle).phase x = .idle := by simp [hne.symm, hx]
      exact hpassed.implements.runs (by rw [hready, hrun]; exact hidle)
    | none =>
      simp only [hbox] at hok hstuck
      rw [if_neg (hk.inbox_eq_none hbox), wp_bind]
      exact wp_awaitReceiver hk hs hx hm (fun k' hp hr => hok k' hp (by simp) hr)
        fun k' hp => hstuck k' hp trivial

/-! ## Receiving -/

theorem wp_takeInterrupt (hk : k.Implements s) (hp : s.phase p = .idle) (hm : m ≠ 0)
    (hok : ∀ k', k.Passed (s.setPending p False, .interrupt p m) k' →
      k'.pProcReady = k.pProcReady → Q () k') :
    wp (takeInterrupt p m) Q E k := by
  have hproc := hk.proc p
  rw [hp] at hproc
  obtain ⟨h₁, h₂, h₃, h₄⟩ := hproc
  simp only [takeInterrupt, wp_bind, wp_get, wp_assert_of, hk.wp_va2la, wp_modify, wp_setProc,
    Kernel.setProc_self, Kernel.put_procTable, h₁, h₂, h₄, hm, ne_eq, not_false_iff]
  refine hok _ ⟨?_, ⟨hardIntMessage, rfl, rfl, rfl, rfl⟩, ?_⟩ rfl
  · exact (hk.congr Kernel.put_procTable).setPending (by simp)
  · exact ((Kernel.Frame.refl k).put _).setProc rfl

theorem wp_assertMatch (hk : k.Implements s) (hw : s.phase who = .idle)
    (hx : s.phase x = .sending who c) (hq : (k.procTable who).qSending ≠ none) :
    wp (assertMatch who x) Q E k ↔ Q () k := by
  have hpw := hk.proc who
  have hpx := hk.proc x
  rw [hw] at hpw
  rw [hx] at hpx
  obtain ⟨h₁, h₂, h₃, h₄⟩ := hpw
  obtain ⟨h₅, h₆, hc, h₇, h₈⟩ := hpx
  simp only [assertMatch, wp_bind, wp_get, wp_assert_of, h₁, h₂, h₃, h₄, h₅, h₆, h₇, h₈, hc, hq,
    ne_eq, not_false_iff]

/-- The sender's cell and the one before it are found in the queue. -/
theorem wp_findSender {Q : Option (Pid × Option Pid) → Kernel → Prop} (hk : k.Implements s)
    (hs : s.WellFormed) (hw : s.phase who = .idle)
    (hok : ∀ x c l₁ l₂, s.offer who src = some (x, c) → s.queue who = l₁ ++ x :: l₂ →
      Q (some (x, l₁.getLast?)) k)
    (hnone : s.offer who src = none → Q none k) :
    wp (findSender who (sourceCode src)) Q E k := by
  have hchain := hk.queue who
  rw [findSender, wp_bind, wp_get]
  cases src with
  | any =>
    rw [sourceCode, if_pos rfl]
    rcases hq : s.queue who with _ | ⟨x, l⟩
    · rw [hq] at hchain
      have hnil : (k.procTable who).qSending = none := hchain
      simp only [hnil, wp_pure]
      exact hnone (State.offer_of_none (by simp [hq]))
    · rw [hq] at hchain
      have hhead : (k.procTable who).qSending = some x := hchain.1
      obtain ⟨c, hx, hoffer⟩ := hs.offer_of_split (List.nil_append (x :: l) ▸ hq) .any trivial
        (List.forall_mem_nil _)
      simp only [hhead, wp_bind, wp_assertMatch hk hw hx (by simp [hhead]), wp_pure]
      exact hok x c [] l hoffer hq
  | interrupt =>
    rw [if_neg (by decide), if_neg (by decide), wp_pure]
    exact hnone (State.offer_of_none fun y _ h => h)
  | only y =>
    rw [sourceCode, if_neg y.val_lt.1.ne, if_pos (by omega), wp_bind, wp_procAt]
    by_cases hy : s.waits y = some who
    · obtain ⟨l₁, l₂, hq⟩ := List.append_of_mem ((hs.queued y who).mpr hy)
      have hfresh : y ∉ l₁ := by
        have := hs.nodup who
        rw [hq, List.nodup_append] at this
        exact fun hmem => this.2.2 y hmem y (by simp) rfl
      obtain ⟨c, hc, hoffer⟩ := hs.offer_of_split hq (.only y) rfl
        fun z hz hzy => hfresh (hzy ▸ hz)
      have hlen : l₁.length < tableSize + 1 := by
        have := (hs.nodup who).length_le_card
        rw [hq] at this
        simp at this
        simp only [tableSize]
        omega
      have hhead : (k.procTable who).qSending ≠ none := by
        intro hnil
        rw [hnil, hq] at hchain
        simpa using hchain.eq_nil
      have hseek : Linked.seek (fun q => (k.procTable q).nextSending) y (tableSize + 1) none
          (k.procTable who).qSending = some l₁.getLast? := by
        rw [hq] at hchain
        exact (hchain.seek_eq hfresh hlen none).trans (by rw [Option.or_none])
      rw [if_pos (hk.waits_eq.mp hy), wp_bind, wp_assert_of hhead]
      simp only [hseek, wp_bind, wp_assertMatch hk hw hc hhead, wp_pure]
      exact hok y c l₁ l₂ hoffer hq
    · rw [if_neg fun h => hy (hk.waits_eq.mpr h), wp_pure]
      refine hnone (State.offer_of_none fun z hz hzy => hy ?_)
      obtain rfl : z = y := hzy
      exact (hs.queued z who).mp hz

theorem wp_unlink (hk : k.Implements s) (hs : s.WellFormed) (hne : x ≠ who)
    {l₁ l₂ : List Pid} (hq : s.queue who = l₁ ++ x :: l₂)
    (hok : ∀ u v, (∀ e, Linked.Chain v (u e)
      (Function.update s.queue who ((s.queue who).erase x) e)) → Q () (k.relink u v)) :
    wp (unlink who x l₁.getLast?) Q E k := by
  have hnd := hs.nodup who
  rw [hq] at hnd
  have hx₁ : x ∉ l₁ := fun h => (List.nodup_append.mp hnd).2.2 x h x (by simp) rfl
  have hx₂ : x ∉ l₂ := (List.nodup_cons.mp (List.nodup_append.mp hnd).2.1).1
  have herase : (s.queue who).erase x = l₁ ++ l₂ := by
    rw [hq, List.erase_append_right _ hx₁, List.erase_cons_head]
  have other (e : Pid) (he : e ≠ who) {u v : Pid → Option Pid} (hu : u e = k.head e)
      (hv : ∀ y, y ∉ s.queue who → v y = k.next y) :
      Linked.Chain v (u e) (Function.update s.queue who ((s.queue who).erase x) e) := by
    rw [Function.update_of_ne he, hu]
    refine (hk.queue e).congr fun y hy => hv y fun hyw => he ?_
    rw [hs.queued] at hy hyw
    simpa [hy] using hyw
  have hchain := hk.queue who
  rw [hq] at hchain
  rw [unlink, wp_bind, wp_get]
  cases l₁ using List.reverseRecOn with
  | nil =>
    have hhead : (k.procTable who).qSending = some x := hchain.1
    simp only [List.getLast?_nil, hhead, if_true, wp_bind, wp_setProc, Kernel.setProc_head,
      Kernel.setProc_next, Kernel.relink_relink, Kernel.head_relink, Kernel.next_relink]
    refine hok _ _ fun e => ?_
    by_cases he : e = who
    · subst he
      rw [Function.update_self, Function.update_self, herase]
      refine Linked.Chain.congr hchain.2 fun y hy => ?_
      have hyx : y ≠ x := by rintro rfl; exact hx₂ hy
      simp [hyx]
    · refine other e he (by simp [he]) fun y hy => ?_
      rw [Function.update_of_ne]
      rintro rfl
      exact hy (by simp [hq])
  | append_singleton l a =>
    have hhead : (k.procTable who).qSending ≠ some x := by
      intro hhead
      rw [hhead] at hchain
      cases l with
      | nil =>
        obtain rfl := Option.some.inj hchain.1
        simp at hx₁
      | cons y l =>
        obtain rfl := Option.some.inj hchain.1
        simp at hx₁
    have hax : a ≠ x := fun h => hx₁ (by simp [h])
    simp only [hhead, if_false, List.getLast?_append, List.getLast?_singleton, Option.some_or,
      wp_bind, wp_setProc, Kernel.setProc_next, Kernel.relink_relink, Kernel.head_relink,
      Kernel.next_relink]
    refine hok _ _ fun e => ?_
    by_cases he : e = who
    · subst he
      rw [Function.update_self, herase, List.append_assoc, List.singleton_append]
      rw [List.append_assoc, List.singleton_append] at hchain
      refine hchain.unlink (by simp [hax, Kernel.next]) (fun b hb => ?_) fun b hb => ?_
      · have hba : b ≠ a := by
          rintro rfl
          have := (List.nodup_append.mp (List.nodup_append.mp hnd).1).2.2 b hb b (by simp)
          exact this rfl
        have hbx : b ≠ x := fun h => hx₁ (by simp [← h, hb])
        simp [hba, hbx]
      · have hba : b ≠ a := by
          rintro rfl
          exact (List.nodup_append.mp hnd).2.2 b (by simp) b (by simp [hb]) rfl
        have hbx : b ≠ x := fun h => hx₂ (h ▸ hb)
        simp [hba, hbx]
    · refine other e he rfl fun y hy => ?_
      have hya : y ≠ a := by rintro rfl; exact hy (by simp [hq])
      have hyx : y ≠ x := by rintro rfl; exact hy (by simp [hq])
      simp [hya, hyx]

/-- The sender is unlinked, its message copied and the sender released. -/
theorem wp_takeFrom (hk : k.Implements s) (hs : s.WellFormed) (hw : s.phase who = .idle)
    (hx : s.phase x = .sending who c) {l₁ l₂ : List Pid} (hq : s.queue who = l₁ ++ x :: l₂)
    (hm : m ≠ 0)
    (hok : ∀ k', k.Passed (s.dequeue x who, .transfer x c who m) k' →
      k'.pProcReady = k.pProcReady → Q () k') :
    wp (takeFrom who x l₁.getLast? m) Q E k := by
  have hne : x ≠ who := by
    rintro rfl
    simp [hw] at hx
  rw [takeFrom, wp_bind]
  refine wp_unlink hk hs hne hq fun u v hlinks => ?_
  have hk₁ := hk.relink hlinks
  have hpx := hk.proc x
  rw [hx] at hpx
  obtain ⟨h₁, h₂, hc, h₃, -⟩ := hpx
  have hxu : (k.relink u v).procTable x =
      { k.procTable x with qSending := u x, nextSending := v x } := rfl
  simp only [wp_bind, wp_get, wp_assert_of, hk₁.wp_va2la, wp_copyMessage, wp_setProc, unblock,
    Kernel.setProc_setProc, Kernel.setProc_self, Kernel.put_procTable, Function.comp, hxu, h₁, h₂,
    hc, hm, sending_clear, ne_eq, not_false_iff]
  refine hok _ ⟨?_, ⟨rfl, rfl⟩, (((Kernel.Frame.refl k).relink u v).put _).setProc rfl⟩ rfl
  apply Kernel.Implements.setPhase (hk₁.congr Kernel.put_procTable)
  · exact ⟨by simp [hxu, h₁], rfl, h₃, rfl⟩
  · exact ⟨rfl, rfl⟩
  · rfl
  · rfl

theorem wp_awaitSender (hk : k.Implements s) (hw : s.phase who = .idle) (hm : m ≠ 0)
    (hok : ∀ k', k.Passed (s.setPhase who (.receiving src m), .blocked) k' → ¬ s.pending who →
      k'.Runs → Q () k')
    (herr : ∀ k' halt, k.Passed (s.setPhase who (.receiving src m), .blocked) k' →
      halt = .diverge ∨
        halt = .assertion "p_who_wanna_recv->has_int_msg == 0" ∧ s.pending who ∧ k'.Runs →
      E halt k') :
    wp (awaitSender who (sourceCode src) m) Q E k := by
  have hpw := hk.proc who
  rw [hw] at hpw
  obtain ⟨h₁, -, -, h₄⟩ := hpw
  simp only [awaitSender, wp_bind, wp_setProc, Kernel.setProc_setProc]
  generalize hk₁ : k.setProc who _ = k₁
  have hpassed : k.Passed (s.setPhase who (.receiving src m), .blocked) k₁ := by
    rw [← hk₁]
    refine ⟨?_, ⟨rfl, rfl⟩, (Kernel.Frame.refl k).setProc rfl⟩
    apply hk.setPhase
    · exact ⟨by simp [h₁], rfl, hm, rfl, h₄⟩
    · exact ⟨rfl, rfl⟩
    · rfl
    · rfl
  have hproc : (k₁.procTable who).pFlags = receiving ∧ (k₁.procTable who).pMsg = m ∧
      (k₁.procTable who).pRecvfrom = sourceCode src ∧ (k₁.procTable who).pSendto = noTask ∧
      (k₁.procTable who).hasIntMsg = (k.procTable who).hasIntMsg := by
    rw [← hk₁]
    simp [h₁, h₄]
  refine wp_block (by simp [hproc]) (fun t q hq => ?_) fun t =>
    herr _ _ (hpassed.retick t _) (.inl rfl)
  simp only [wp_get, wp_assert, Kernel.retick_procTable, hproc, hm, sourceCode_ne_noTask, ne_eq,
    not_false_iff, not_true, true_imp_iff, false_imp_iff, and_true]
  refine ⟨fun hint => hok _ (hpassed.retick t q) ?_ hq, fun hint => ?_⟩
  · rwa [← hk.pending, not_not]
  · exact herr _ _ (hpassed.retick t q) (.inr ⟨rfl, (hk.pending who).mp hint, hq⟩)

/-- `msg_receive` is `receive`. The one assertion that can fail is the last one, on a process
that went to sleep while an interrupt it does not accept was pending. -/
theorem wp_msgReceive {Q : Int → Kernel → Prop} (hk : k.Implements s) (hs : s.WellFormed)
    (hw : s.phase who = .idle) (hne : src ≠ .only who) (hm : m ≠ 0) (hrun : k.pProcReady = who)
    (hok : ∀ k', k.Passed (s.receive who src m) k' →
      ((s.receive who src m).2 = .blocked → ¬ s.pending who) → k'.Runs → Q 0 k')
    (herr : ∀ k' halt, k.Passed (s.receive who src m) k' → (s.receive who src m).2 = .blocked →
      halt = .diverge ∨
        halt = .assertion "p_who_wanna_recv->has_int_msg == 0" ∧ s.pending who ∧ k'.Runs →
      E halt k') :
    wp (msgReceive who (sourceCode src) m) Q E k := by
  have hne' : (who.val : Int) ≠ sourceCode src := by
    cases src with
    | any => exact who.val_lt.1.ne
    | interrupt => exact who.val_lt.2.2.ne'
    | only p =>
      intro h
      exact hne (congrArg _ (Fin.ext (by simpa [sourceCode] using h.symm)))
  have hint : ((k.procTable who).hasIntMsg ≠ 0 ∧ (sourceCode src = anyTask ∨
      sourceCode src = interrupt)) ↔ s.pending who ∧ src.TakesInterrupt := by
    rw [hk.pending, or_comm, sourceCode_takesInterrupt]
  rw [msgReceive, wp_bind, wp_get, wp_bind, wp_assert_of hne']
  unfold State.receive at hok herr
  by_cases hp : s.pending who ∧ src.TakesInterrupt
  · rw [if_pos (hint.mpr hp), wp_bind]
    simp only [hp, and_self, if_true] at hok
    refine wp_takeInterrupt hk hw hm fun k' hpassed hready => hok k' hpassed (by simp) ?_
    exact hpassed.implements.runs (by rw [hready, hrun]; exact hw)
  · rw [if_neg (mt hint.mp hp), wp_bind]
    simp only [hp, if_false] at hok herr
    refine wp_findSender hk hs hw (fun x c l₁ l₂ hoffer hq => ?_) fun hoffer => ?_
    · obtain ⟨hx, -⟩ := hs.offer_eq_some hoffer
      simp only [hoffer] at hok
      rw [wp_bind]
      refine wp_takeFrom hk hs hw hx hq hm fun k' hpassed hready => hok k' hpassed (by simp) ?_
      refine hpassed.implements.runs ?_
      have hxw : who ≠ x := by
        rintro rfl
        simp [hw] at hx
      rw [hready, hrun]
      simpa [State.dequeue, hxw] using hw
    · simp only [hoffer, forall_const] at hok herr
      rw [wp_bind]
      exact wp_awaitSender hk hw hm hok herr

/-! ## The system call -/

/-- The system calls whose arguments `sys_sendrec` accepts, by what they ask for. -/
inductive Call
  | send (dest : Pid)
  | receive (src : Source Pid)

def Call.function : Call → Int
  | send _ => Dlos.send
  | receive _ => Dlos.receive

def Call.srcDest : Call → Int
  | send d => d.val
  | receive src => sourceCode src

/-- Nobody calls himself. -/
def Call.Valid (p : Pid) : Call → Prop
  | send d => d ≠ p
  | receive src => src ≠ .only p

noncomputable def Call.run (s : Ipc) (p : Pid) (m : Addr) : Call → Ipc × Effect Pid Addr
  | send d => s.send p d m
  | receive src => s.receive p src m

/-- The caller's buffer with the caller as `source`. -/
def Kernel.stamp (k : Kernel) (p : Pid) (m : Addr) : Kernel :=
  k.setMsg (k.la p m) { k.msgs (k.la p m) with source := p.val }

variable {call : Call}

theorem Call.srcDest_cases : (0 ≤ call.srcDest ∧ call.srcDest < (nrTasks + nrProcs : Nat)) ∨
    call.srcDest = anyTask ∨ call.srcDest = interrupt := by
  cases call with
  | send d => exact .inl ⟨by simp [srcDest], by simp only [srcDest]; omega⟩
  | receive src =>
    cases src with
    | any => exact .inr (.inl rfl)
    | interrupt => exact .inr (.inr rfl)
    | only q => exact .inl ⟨by simp [srcDest, sourceCode], by simp only [srcDest, sourceCode]; omega⟩

theorem Call.Valid.ne_srcDest (h : call.Valid p) : (p.val : Int) ≠ call.srcDest := by
  cases call with
  | send d => simpa [srcDest, Call.Valid, Fin.ext_iff, eq_comm] using h
  | receive src =>
    cases src with
    | any => exact p.val_lt.1.ne
    | interrupt => exact p.val_lt.2.2.ne'
    | only q => simpa [srcDest, sourceCode, Call.Valid, Fin.ext_iff, eq_comm] using h

theorem Call.run_wellFormed (hs : s.WellFormed) (hp : s.phase p = .idle) (h : call.Valid p) :
    (call.run s p m).1.WellFormed := by
  cases call with
  | send d => exact hs.send hp h
  | receive src => exact hs.receive hp

theorem Call.run_of_deadlock (h : (call.run s p m).2 = .deadlock) :
    call.run s p m = (s, .deadlock) := by
  cases call with
  | send d => exact State.send_of_deadlock h
  | receive src => exact absurd h State.receive_ne_deadlock

/-- What is left of `sys_sendrec` once its arguments are accepted. -/
def Call.body (p : Pid) (m : Addr) : Call → KM Int
  | send d => msgSend p d.val m
  | receive src => msgReceive p (sourceCode src) m

theorem wp_sysSendrec_body {Q : Int → Kernel → Prop} (hk : k.Implements s) (hv : call.Valid p)
    (hre : k.kReenter = 0) :
    wp (sysSendrec call.function call.srcDest m p) Q E k ↔ wp (call.body p m) Q E (k.stamp p m) := by
  simp only [sysSendrec, wp_bind, wp_get, wp_assert_of hre, wp_assert_of call.srcDest_cases,
    hk.wp_va2la, wp_modify, wp_assert_of hv.ne_srcDest]
  cases call with
  | send d => exact iff_of_eq (by rw [if_pos (by rfl)]; rfl)
  | receive src => exact iff_of_eq (by rw [if_neg (by simp [Call.function]), if_pos (by rfl)]; rfl)

/-- `sys_sendrec` does what its arguments ask for. -/
theorem wp_sysSendrec {Q : Int → Kernel → Prop} (hk : k.Implements s) (hs : s.WellFormed)
    (hp : s.phase p = .idle) (hv : call.Valid p) (hm : m ≠ 0) (hrun : k.pProcReady = p)
    (hre : k.kReenter = 0)
    (hok : ∀ k', (k.stamp p m).Passed (call.run s p m) k' →
      (call.run s p m).2 ≠ .deadlock → k'.Runs → Q 0 k')
    (hpanic : ∀ text, (call.run s p m).2 = .deadlock → E (.panic text) (k.stamp p m))
    (herr : ∀ k' halt, (k.stamp p m).Passed (call.run s p m) k' →
      (call.run s p m).2 = .blocked → halt = .diverge ∨
        halt = .assertion "p_who_wanna_recv->has_int_msg == 0" ∧ s.pending p ∧ k'.Runs →
      E halt k') :
    wp (sysSendrec call.function call.srcDest m p) Q E k := by
  have hk₁ : (k.stamp p m).Implements s := hk.congr rfl
  rw [wp_sysSendrec_body hk hv hre]
  cases call with
  | send d =>
    exact wp_msgSend hk₁ hs hp hv hm hrun hok (hpanic _) fun k' h hb => herr k' _ h hb (.inl rfl)
  | receive src =>
    exact wp_msgReceive hk₁ hs hp hv hm hrun
      (fun k' h _ hr => hok k' h State.receive_ne_deadlock hr) herr

/-! ## Interrupts -/

/-- `inform_int` of a native process is `notify`. -/
theorem wp_informInt (hk : k.Implements s) (hflat : p.val < nrTasks + nrNativeProcs)
    (hok : ∀ k', k.Passed (s.notify p) k' → k'.pProcReady = k.pProcReady → Q () k') :
    wp (informInt p) Q E k := by
  have hproc := hk.proc p
  have hnoted (hn : s.notify p = (s.setPending p True, .noted)) :
      Q () (k.setProc p ({ · with hasIntMsg := 1 })) := by
    refine hok _ ?_ rfl
    rw [hn]
    exact ⟨hk.setPending (by simp), ⟨rfl, rfl⟩, (Kernel.Frame.refl k).setProc rfl⟩
  rw [informInt, wp_bind, wp_get]
  cases hp : s.phase p with
  | free =>
    rw [hp] at hproc
    rw [if_neg (by simp [hproc.isReceiving]), wp_setProc]
    exact hnoted (by simp [State.notify, hp])
  | idle =>
    rw [hp] at hproc
    rw [if_neg (by simp [hproc.isReceiving]), wp_setProc]
    exact hnoted (by simp [State.notify, hp])
  | sending d b =>
    rw [hp] at hproc
    rw [if_neg (by simp [hproc.isReceiving]), wp_setProc]
    exact hnoted (by simp [State.notify, hp])
  | receiving src b =>
    rw [hp] at hproc
    have hr : (k.procTable p).isReceiving := hproc.isReceiving.mpr ⟨src, b, rfl⟩
    obtain ⟨h₁, h₂, hb, h₃, h₄⟩ := hproc
    have hla : k.la p b = b := by simp [Kernel.la, hk.flat p hflat]
    by_cases ht : src.TakesInterrupt
    · have hcond := sourceCode_takesInterrupt.mpr ht
      rw [← h₃] at hcond
      rw [if_pos ⟨hr, hcond⟩]
      simp only [wp_bind, wp_modify, wp_setProc, wp_get, wp_assert_of, unblock, assertReleased,
        Kernel.setProc_setProc, Kernel.setProc_self, Kernel.put_procTable, Function.comp, h₁, h₄,
        receiving_clear]
      refine hok _ ?_ rfl
      have hn : s.notify p = ((s.setPhase p .idle).setPending p False, .interrupt p b) := by
        simp [State.notify, hp, ht]
      rw [hn]
      refine ⟨?_, ?_, ((Kernel.Frame.refl k).put _).setProc rfl⟩
      · apply (hk.congr Kernel.put_procTable).setProc
        · exact ⟨by simp [h₁], rfl, rfl, h₄⟩
        · exact ⟨rfl, rfl⟩
        · simp
        · rfl
      · refine ⟨{ k.msgs b with source := interrupt, type := MsgType.hardInt }, rfl, rfl, ?_, ?_⟩
        · simp [hla, h₂]
        · simp [hla, h₂]
    · rw [if_neg fun h => ht (sourceCode_takesInterrupt.mp (h₃ ▸ h.2)), wp_setProc]
      exact hnoted (by simp [State.notify, hp, ht])

/-- The clock counts, may inform TTY and may run the scheduler. -/
theorem wp_clockHandler (hk : k.Implements s) (hrun : k.Runs)
    (hok : ∀ outcome k', outcome = (s, .noted) ∨ outcome = s.notify taskTty →
      k.Passed outcome k' → k'.Runs → Q () k')
    (herr : ∀ outcome k', outcome = (s, .noted) ∨ outcome = s.notify taskTty →
      k.Passed outcome k' → E .diverge k') :
    wp clockHandler Q E k := by
  have hidle := hk.idle_of_runs hrun
  -- the end of the handler, from any outcome of the interrupt
  have finish (outcome) (k' : Kernel) (ho : outcome = (s, .noted) ∨ outcome = s.notify taskTty)
      (h : k.Passed outcome k') (hready : k'.pProcReady = k.pProcReady) :
      wp (if k'.kReenter ≠ 0 then pure ()
        else if (k'.procTable k'.pProcReady).ticks > 0 then pure ()
        else schedule : KM Unit) Q E k' := by
    have hruns : k'.Runs := by
      refine h.implements.runs ?_
      rw [hready]
      rcases ho with rfl | rfl
      · exact hidle
      · exact State.phase_notify_of_idle hidle
    rw [wp_ite, wp_ite, wp_pure]
    refine ⟨fun _ => hok _ _ ho h hruns, fun _ => ⟨fun _ => hok _ _ ho h hruns, fun _ => ?_⟩⟩
    exact wp_schedule (fun t q hq => hok _ _ ho (h.retick t q) hq)
      fun t => herr _ _ ho (h.retick t _)
  rw [clockHandler, wp_bind, wp_modify, wp_bind, wp_get, wp_bind, wp_onlyIf, wp_setProc]
  generalize hk₁ : ({ k with ticks := if k.ticks + 1 ≥ maxTicks then 0 else k.ticks + 1 } : Kernel)
    = k₁
  -- counting leaves message passing alone
  have hnoted : k.Passed (s, .noted) k₁ ∧ k₁.pProcReady = k.pProcReady := by
    rw [← hk₁]
    exact ⟨⟨hk.congr rfl, ⟨rfl, rfl⟩, ⟨fun _ => rfl, rfl, rfl⟩⟩, rfl⟩
  have inform (k₂ : Kernel) (h : k.Passed (s, .noted) k₂) (hready : k₂.pProcReady = k.pProcReady) :
      wp (do
        onlyIf (k₁.keyPressed ≠ 0) (informInt taskTty)
        let k ← get
        if k.kReenter ≠ 0 then pure ()
        else if (k.procTable k.pProcReady).ticks > 0 then pure ()
        else schedule : KM Unit) Q E k₂ := by
    rw [wp_bind, wp_onlyIf]
    refine ⟨fun _ => ?_, fun _ => ?_⟩
    · refine wp_informInt h.implements (by decide) fun k' h' hready' => ?_
      rw [wp_bind, wp_get]
      exact finish _ k' (.inr rfl) (h'.after h.frame h.moved.1 h.moved.2) (hready'.trans hready)
    · rw [wp_bind, wp_get]
      exact finish _ k₂ (.inl rfl) h hready
  refine ⟨fun _ => inform _ ?_ hnoted.2, fun _ => inform _ hnoted.1 hnoted.2⟩
  refine ⟨?_, hnoted.1.moved, hnoted.1.frame.setProc rfl⟩
  have hset := Kernel.Implements.setPhase (p := k₁.pProcReady) hnoted.1.implements
    (f := fun p => { p with ticks := p.ticks - 1 }) (hnoted.1.implements.proc _) ⟨rfl, rfl⟩ rfl rfl
  rwa [State.setPhase_self] at hset

end

end Dlos
