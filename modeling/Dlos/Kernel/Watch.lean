import Dlos.Kernel.History

/-!
# What message passing leaves alone

No call and no interrupt touches the name, the segments or the parent of a process or frees or fills
its slot; and a process that waits for MM sleeps on as long as MM makes no call. None of this needs
the queues to be right.
-/

namespace Dlos

open Program

/-- The part of an entry that message passing leaves alone. -/
structure Mark where
  name : String
  ldts : Fin 2 → Descriptor
  pParent : Int
  /-- The flag that makes the slot free. -/
  free : BitVec 32

def Proc.mark (p : Proc) : Mark := ⟨p.name, p.ldts, p.pParent, p.pFlags &&& freeSlot⟩

/-- Waiting for a message of MM. -/
def Proc.AwaitsMm (p : Proc) : Prop := p.pFlags = receiving ∧ p.pRecvfrom = (taskMm : Pid).val

/-- The entries have the given marks, and the watched processes wait for MM. -/
structure Kernel.Watched (W : Pid → Prop) (v : Pid → Mark) (k : Kernel) : Prop where
  mark : ∀ p, (k.procTable p).mark = v p
  awaits : ∀ p, W p → (k.procTable p).AwaitsMm
  notReady : ∀ p, W p → k.pProcReady ≠ p

section

variable {W : Pid → Prop} {v : Pid → Mark} {k k' : Kernel} {p q x : Pid} {f : Proc → Proc}
  {σ : Type}

theorem mark_or (flags bits : BitVec 32) (h : bits &&& freeSlot = 0) :
    (flags ||| bits) &&& freeSlot = flags &&& freeSlot := by
  rw [BitVec.and_or_distrib_right, h]
  exact BitVec.or_zero

theorem mark_and (flags bits : BitVec 32) (h : bits &&& freeSlot = freeSlot) :
    (flags &&& bits) &&& freeSlot = flags &&& freeSlot := by
  rw [BitVec.and_assoc, h]

theorem Kernel.Watched.congr (h : k.Watched W v) (table : k'.procTable = k.procTable)
    (ready : k'.pProcReady = k.pProcReady) : k'.Watched W v :=
  ⟨by simpa only [table] using h.mark, by simpa only [table] using h.awaits,
    by simpa only [ready] using h.notReady⟩

/-- A process that is not watched may change its state. -/
theorem watched_setProc (hmark : ∀ e, (f e).mark = e.mark) (hp : ¬ W p) :
    Preserves (Kernel.Watched W v) (setProc p f) := by
  intro k hk
  refine ⟨fun q => ?_, fun q hq => ?_, hk.notReady⟩
  · by_cases hqp : q = p
    · subst hqp; simpa [hmark] using hk.mark q
    · simpa [hqp] using hk.mark q
  · have hqp : q ≠ p := fun h => hp (h ▸ hq)
    simpa [hqp] using hk.awaits q hq

/-- Any process may change what is not looked at. -/
theorem watched_setOther (hmark : ∀ e, (f e).mark = e.mark)
    (hsame : ∀ e, (f e).pFlags = e.pFlags ∧ (f e).pRecvfrom = e.pRecvfrom) :
    Preserves (Kernel.Watched W v) (setProc p f) := by
  intro k hk
  refine ⟨fun q => ?_, fun q hq => ?_, hk.notReady⟩
  · by_cases hqp : q = p
    · subst hqp; simpa [hmark] using hk.mark q
    · simpa [hqp] using hk.mark q
  · by_cases hqp : q = p
    · subst hqp; simpa [Proc.AwaitsMm, hsame] using hk.awaits q hq
    · simpa [hqp] using hk.awaits q hq

theorem watched_assert {exp : String} {c : Prop} [Decidable c] {I : σ → Prop} :
    Preserves I (assert exp c : EStateM Halt σ Unit) := .ensure

theorem watched_procAt {i : Int} {I : σ → Prop} :
    Preserves I (procAt i : EStateM Halt σ Pid) := by
  unfold procAt
  split
  · exact .pure _
  · exact .throw _

theorem watched_schedule : Preserves (Kernel.Watched W v) schedule := by
  intro k hk
  refine wp_schedule (fun t q hq => ⟨hk.mark, hk.awaits, fun p hp heq => ?_⟩)
    fun t => ⟨hk.mark, hk.awaits, hk.notReady⟩
  obtain rfl := heq
  exact absurd (hq.symm.trans (hk.awaits _ hp).1) (by decide)

theorem watched_va2la {va : Addr} : Preserves (Kernel.Watched W v) (va2la p va) :=
  .bind .get fun _ => .bind (.onlyIf watched_assert) fun _ => .pure _

theorem watched_put {g : Kernel → Copy} :
    Preserves (Kernel.Watched W v) (modify fun k => k.put (g k) : KM Unit) :=
  .modify fun _ hk => hk.congr rfl rfl

/-! ## The functions of message passing -/

theorem watched_block : Preserves (Kernel.Watched W v) (block p) :=
  .bind .get fun _ => .bind watched_assert fun _ => watched_schedule

theorem watched_unblock : Preserves (Kernel.Watched W v) (unblock p) :=
  .bind .get fun _ => watched_assert

theorem watched_printPath {fuel : Nat} : Preserves (Kernel.Watched W v) (printPath x fuel p) := by
  induction fuel generalizing p with
  | zero => exact .throw _
  | succ fuel ih =>
    exact .bind .get fun _ => .bind watched_assert fun _ => .bind watched_procAt fun _ =>
      .ite ih (.pure _)

theorem watched_deadlock {fuel : Nat} :
    Preserves (Kernel.Watched W v) (deadlockLoop x q fuel p) := by
  induction fuel generalizing p with
  | zero => exact .throw _
  | succ fuel ih =>
    exact .bind .get fun _ => .ite (.ite (.bind watched_printPath fun _ => .pure _)
      (.bind watched_procAt fun _ => ih)) (.pure _)

theorem watched_assertReleased {a b c d : String} :
    Preserves (Kernel.Watched W v) (assertReleased p a b c d) :=
  .bind .get fun _ => .bind watched_assert fun _ => .bind watched_assert fun _ =>
    .bind watched_assert fun _ => watched_assert

theorem watched_deliver {m : Addr} (hq : ¬ W q) :
    Preserves (Kernel.Watched W v) (deliver p q m) :=
  .bind .get fun _ => .bind watched_assert fun _ => .bind watched_assert fun _ =>
    .bind watched_va2la fun _ => .bind watched_va2la fun _ => .bind watched_put fun _ =>
    .bind (watched_setProc (fun _ => rfl) hq) fun _ =>
    .bind (watched_setProc (fun e => by rw [Proc.mark, mark_and _ _ (by decide)]; rfl) hq) fun _ =>
    .bind (watched_setProc (fun _ => rfl) hq) fun _ => .bind watched_unblock fun _ =>
    .bind watched_assertReleased fun _ => watched_assertReleased

theorem watched_setNext {n : Option Pid} :
    Preserves (Kernel.Watched W v) (setProc p ({ · with nextSending := n })) :=
  watched_setOther (fun _ => rfl) fun _ => ⟨rfl, rfl⟩

theorem watched_setHead {n : Option Pid} :
    Preserves (Kernel.Watched W v) (setProc p ({ · with qSending := n })) :=
  watched_setOther (fun _ => rfl) fun _ => ⟨rfl, rfl⟩

theorem watched_queueEnd : Preserves (Kernel.Watched W v) (queueEnd p) := by
  refine .bind .get fun k => ?_
  split
  · exact .pure _
  · exact .throw _

theorem watched_enqueue : Preserves (Kernel.Watched W v) (enqueue p q) := by
  refine .bind .get fun k => ?_
  split
  · exact .bind watched_queueEnd fun _ => .bind watched_setNext fun _ => watched_setNext
  · exact .bind watched_setHead fun _ => watched_setNext

theorem watched_awaitReceiver {m : Addr} (hp : ¬ W p) :
    Preserves (Kernel.Watched W v) (awaitReceiver p q m) :=
  .bind (watched_setProc (fun e => by rw [Proc.mark, mark_or _ _ (by decide)]; rfl) hp) fun _ =>
    .bind .get fun _ => .bind watched_assert fun _ =>
    .bind (watched_setProc (fun _ => rfl) hp) fun _ =>
    .bind (watched_setProc (fun _ => rfl) hp) fun _ => .bind watched_enqueue fun _ =>
    .bind watched_block fun _ => .bind .get fun _ => .bind watched_assert fun _ =>
    .bind watched_assert fun _ => .bind watched_assert fun _ => watched_assert

theorem watched_takeInterrupt {m : Addr} (hp : ¬ W p) :
    Preserves (Kernel.Watched W v) (takeInterrupt p m) :=
  .bind watched_assert fun _ => .bind watched_va2la fun _ => .bind watched_put fun _ =>
    .bind (watched_setProc (fun _ => rfl) hp) fun _ => .bind .get fun _ =>
    .bind watched_assert fun _ => .bind watched_assert fun _ => .bind watched_assert fun _ =>
    watched_assert

theorem watched_unlink {prev : Option Pid} : Preserves (Kernel.Watched W v) (unlink p x prev) := by
  refine .bind .get fun k => ?_
  split
  · exact .bind watched_assert fun _ => .bind watched_setHead fun _ => watched_setNext
  · split
    · exact .throw _
    · exact .bind watched_setNext fun _ => watched_setNext

theorem watched_takeFrom {prev : Option Pid} {m : Addr} (hx : ¬ W x) :
    Preserves (Kernel.Watched W v) (takeFrom p x prev m) :=
  .bind watched_unlink fun _ => .bind watched_assert fun _ => .bind .get fun _ =>
    .bind watched_assert fun _ => .bind watched_va2la fun _ => .bind watched_va2la fun _ =>
    .bind watched_put fun _ => .bind (watched_setProc (fun _ => rfl) hx) fun _ =>
    .bind (watched_setProc (fun _ => rfl) hx) fun _ =>
    .bind (watched_setProc (fun e => by rw [Proc.mark, mark_and _ _ (by decide)]; rfl) hx) fun _ =>
    watched_unblock

theorem watched_awaitSender {i : Int} {m : Addr} (hp : ¬ W p) :
    Preserves (Kernel.Watched W v) (awaitSender p i m) :=
  .bind (watched_setProc (fun e => by rw [Proc.mark, mark_or _ _ (by decide)]; rfl) hp) fun _ =>
    .bind (watched_setProc (fun _ => rfl) hp) fun _ =>
    .bind (watched_setProc (fun _ => rfl) hp) fun _ => .bind watched_block fun _ =>
    .bind .get fun _ => .bind watched_assert fun _ => .bind watched_assert fun _ =>
    .bind watched_assert fun _ => .bind watched_assert fun _ => watched_assert

/-- A matched sender is SENDING. -/
theorem wp_assertMatch_sending :
    wp (assertMatch p x) (fun _ k' => k' = k ∧ (k.procTable x).pFlags = sending)
      (fun _ k' => k' = k) k := by
  simp only [assertMatch, wp_bind, wp_get, wp_assert, implies_true, and_true]
  exact fun _ _ _ _ _ hsending _ _ _ => ⟨trivial, hsending⟩

/-- Whom `msg_receive` takes a message from is SENDING. -/
theorem wp_findSender_sending {i : Int} :
    wp (findSender p i) (fun r k' => k' = k ∧
      ∀ x prev, r = some (x, prev) → (k.procTable x).pFlags = sending) (fun _ k' => k' = k) k := by
  have found (x : Pid) (prev : Option Pid) : wp (do
      assertMatch p x
      pure (some (x, prev)) : KM (Option (Pid × Option Pid))) (fun r k' => k' = k ∧
        ∀ x prev, r = some (x, prev) → (k.procTable x).pFlags = sending) (fun _ k' => k' = k) k := by
    rw [wp_bind]
    refine wp_assertMatch_sending.mono (fun _ k' h => ⟨h.1, fun y _ hy => ?_⟩) fun _ _ h => h
    obtain ⟨rfl, -⟩ := Prod.mk.inj (Option.some.inj hy)
    exact h.2
  rw [findSender, wp_bind, wp_get]
  split
  · split
    · exact found _ _
    · exact ⟨rfl, by simp⟩
  · split
    · rw [wp_bind, procAt]
      split
      · rw [wp_pure]
        split
        · rw [wp_bind, wp_assert]
          refine ⟨fun _ => ?_, fun _ => rfl⟩
          split
          · exact found _ _
          · exact rfl
        · exact ⟨rfl, by simp⟩
      · exact rfl
    · exact ⟨rfl, by simp⟩

theorem watched_msgReceive {i : Int} {m : Addr} (hp : ¬ W p) :
    Preserves (Kernel.Watched W v) (msgReceive p i m) := by
  refine .bind .get fun k => .bind watched_assert fun _ => ?_
  refine .ite (.bind (watched_takeInterrupt hp) fun _ => .pure _) fun k hk => ?_
  rw [wp_bind]
  refine wp_findSender_sending.mono ?_ ?_
  · rintro r _ ⟨rfl, hr⟩
    cases r with
    | none => exact (watched_awaitSender hp).bind (fun _ => .pure _) _ hk
    | some xq =>
      have hx : ¬ W xq.1 := fun hw =>
        absurd ((hr xq.1 xq.2 rfl).symm.trans (hk.awaits _ hw).1) (by decide)
      exact (watched_takeFrom hx).bind (fun _ => .pure _) _ hk
  · rintro _ _ rfl
    exact hk

/-- Nobody but MM sends to a process that waits for MM. -/
theorem watched_msgSend {i : Int} {m : Addr} (hp : ¬ W p) (hmm : ∀ q, W q → p ≠ taskMm) :
    Preserves (Kernel.Watched W v) (msgSend p i m) := by
  refine .bind watched_procAt fun d => .bind watched_assert fun _ =>
    .bind watched_deadlock fun _ => fun k hk => ?_
  rw [wp_bind, wp_get, wp_bind, wp_onlyIf, wp_throw, wp_ite]
  refine ⟨fun _ => hk, fun _ => ⟨fun hd => ?_, fun _ => ?_⟩⟩
  · have hw : ¬ W d := by
      intro hw
      have hfrom := (hk.awaits d hw).2
      rcases hd.2 with h | h
      · exact hmm d hw (Fin.ext (by exact_mod_cast h.symm.trans hfrom))
      · exact absurd (h.symm.trans hfrom) (by decide)
    exact (watched_deliver hw).bind (fun _ => .pure _) k hk
  · exact (watched_awaitReceiver hp).bind (fun _ => .pure _) k hk

theorem watched_sysSendrec {function i : Int} {m : Addr} (hp : ¬ W p)
    (hmm : ∀ q, W q → p ≠ taskMm) : Preserves (Kernel.Watched W v) (sysSendrec function i m p) :=
  .bind .get fun _ => .bind watched_assert fun _ => .bind watched_assert fun _ =>
    .bind watched_va2la fun _ => .bind (.modify fun _ hk => hk.congr rfl rfl) fun _ =>
    .bind watched_assert fun _ => .ite (watched_msgSend hp hmm)
      (.ite (watched_msgReceive hp) (.throw _))

theorem watched_noteInt {n : Int} :
    Preserves (Kernel.Watched W v) (setProc p ({ · with hasIntMsg := n })) :=
  watched_setOther (fun _ => rfl) fun _ => ⟨rfl, rfl⟩

theorem watched_informInt : Preserves (Kernel.Watched W v) (informInt p) := by
  refine fun k hk => ?_
  rw [informInt, wp_bind, wp_get, wp_ite]
  refine ⟨fun hcond => ?_, fun _ => watched_noteInt k hk⟩
  have hw : ¬ W p := by
    intro hw
    have hfrom := (hk.awaits p hw).2
    rcases hcond.2 with h | h <;> exact absurd (h.symm.trans hfrom) (by decide)
  have rest : Preserves (Kernel.Watched W v) (do
      let buf := (k.procTable p).pMsg
      let msg := { k.msgs buf with source := interrupt, type := MsgType.hardInt }
      modify fun k => k.put ⟨p, buf, interrupt, msg⟩
      setProc p ({ · with pMsg := 0 })
      setProc p ({ · with hasIntMsg := 0 })
      setProc p fun p => { p with pFlags := p.pFlags &&& ~~~receiving }
      setProc p ({ · with pRecvfrom := noTask })
      let k ← get
      assert "p->p_flags == 0" ((k.procTable p).pFlags = 0)
      unblock p
      assertReleased p "p->p_flags == 0" "p->p_msg == 0" "p->p_recvfrom == NO_TASK"
        "p->p_sendto == NO_TASK" : KM Unit) :=
    .bind watched_put fun _ => .bind (watched_setProc (fun _ => rfl) hw) fun _ =>
      .bind (watched_setProc (fun _ => rfl) hw) fun _ =>
      .bind (watched_setProc (fun e => by rw [Proc.mark, mark_and _ _ (by decide)]; rfl) hw) fun _ =>
      .bind (watched_setProc (fun _ => rfl) hw) fun _ => .bind .get fun _ =>
      .bind watched_assert fun _ => .bind watched_unblock fun _ => watched_assertReleased
  exact rest k hk

theorem watched_clockHandler : Preserves (Kernel.Watched W v) clockHandler :=
  .bind (.modify fun _ hk => hk.congr rfl rfl) fun _ => .bind .get fun _ =>
    .bind (.onlyIf (watched_setOther (fun _ => rfl) fun _ => ⟨rfl, rfl⟩)) fun _ =>
    .bind (.onlyIf watched_informInt) fun _ => .bind .get fun _ =>
    .ite (.pure _) (.ite (.pure _) watched_schedule)

/-- An event of the kernel, made by another process than MM if by a process at all. -/
theorem Event.watched (e : Event) (hmm : e.ByProcess → ∀ q, W q → k.pProcReady ≠ taskMm)
    (hk : k.Watched W v) :
    wp e.run (fun _ k' => k'.Watched W v) (fun _ k' => k'.Watched W v) k := by
  cases e with
  | sendrec function srcDest m =>
    rw [run, wp_bind, wp_get]
    have hp : ¬ W k.pProcReady := fun hw => hk.notReady _ hw rfl
    exact (watched_sysSendrec hp (hmm trivial)).bind (fun _ => .pure _) k hk
  | write la content => exact hk.congr rfl rfl
  | informInt task => exact watched_informInt k hk
  | clock => exact watched_clockHandler k hk
  | key pressed => exact hk.congr rfl rfl

/-! ## Without anybody watched -/

theorem Kernel.Watched.start (k : Kernel) :
    k.Watched (fun _ => False) fun p => (k.procTable p).mark :=
  ⟨fun _ => rfl, fun _ h => h.elim, fun _ h => h.elim⟩

/-- An event of the kernel leaves all marks. -/
theorem Event.marks (e : Event) : wp e.run
    (fun _ k' => ∀ p, (k'.procTable p).mark = (k.procTable p).mark)
    (fun _ k' => ∀ p, (k'.procTable p).mark = (k.procTable p).mark) k :=
  (e.watched (fun _ _ h => h.elim) (.start k)).mono (fun _ _ h => h.mark) fun _ _ h => h.mark

theorem marks_sysSendrec {function i : Int} {m : Addr} : wp (sysSendrec function i m p)
    (fun _ k' => ∀ q, (k'.procTable q).mark = (k.procTable q).mark)
    (fun _ k' => ∀ q, (k'.procTable q).mark = (k.procTable q).mark) k :=
  (watched_sysSendrec (W := fun _ => False) id (fun _ h => h.elim) k (.start k)).mono
    (fun _ _ h => h.mark) fun _ _ h => h.mark

end

end Dlos
