import Dlos.Kernel.Watch

/-!
# Whom the senders wait for

`p_sendto` of a process that is SENDING is an index of the table, and every walk along these indices
stays in the table. A call of `sys_sendrec` that passes the assertions at its entry leaves the table
only if it is a SEND to one of the two indices that stand for no process.
-/

namespace Dlos

open Program

/-- Who is SENDING sends to a process of the table. -/
def Kernel.SendersInRange (k : Kernel) : Prop :=
  ∀ p, (k.procTable p).isSending → ∃ d : Pid, (k.procTable p).pSendto = d.val

/-- No index outside the table was used. -/
abbrev InRange (e : Halt) : Prop := e ≠ .wildIndex

theorem InRange.assertion {exp : String} : InRange (.assertion exp) := fun h => by cases h

theorem InRange.panic {text : String} : InRange (.panic text) := fun h => by cases h

theorem InRange.diverge : InRange .diverge := fun h => by cases h

/-- The path along `p_sendto` that `deadlock` has found from `p` to `x`. -/
inductive SendPath (k : Kernel) (x : Pid) : Pid → Prop
  | last {p : Pid} : (k.procTable p).isSending → (k.procTable p).pSendto = x.val → SendPath k x p
  | next {p q : Pid} : (k.procTable p).isSending → (k.procTable p).pSendto = q.val → SendPath k x q →
    SendPath k x p

section

variable {k k' : Kernel} {p q x d : Pid} {f : Proc → Proc} {i : Int} {m : Addr} {fuel : Nat}

theorem Kernel.SendersInRange.congr (h : k.SendersInRange) (table : k'.procTable = k.procTable) :
    k'.SendersInRange := by
  intro p hp
  rw [table] at hp ⊢
  exact h p hp

/-- An entry changes, and no new sender comes of it. -/
theorem Kernel.SendersInRange.setProc (h : k.SendersInRange)
    (hf : (f (k.procTable p)).isSending → ∃ d : Pid, (f (k.procTable p)).pSendto = d.val) :
    (k.setProc p f).SendersInRange := by
  intro q hq
  by_cases hqp : q = p
  · subst hqp
    rw [setProc_self] at hq ⊢
    exact hf hq
  · rw [setProc_of_ne hqp] at hq ⊢
    exact h q hq

/-- Changes of an entry that leave `p_sendto` alone and set no flag SENDING. -/
theorem tame_setProc (hf : ∀ e, (f e).isSending → e.isSending ∧ (f e).pSendto = e.pSendto) :
    Tame Kernel.SendersInRange InRange (setProc p f) := fun k hk => hk.setProc fun hs => by
  obtain ⟨hsending, hto⟩ := hf _ hs
  rw [hto]
  exact hk p hsending

theorem isSending_and {e : Proc} {bits : BitVec 32}
    (h : ({ e with pFlags := e.pFlags &&& bits } : Proc).isSending) : e.isSending := by
  intro hzero
  refine h ?_
  change e.pFlags &&& bits &&& sending = 0
  rw [BitVec.and_assoc, BitVec.and_comm bits, ← BitVec.and_assoc, hzero]
  exact BitVec.zero_and

theorem isSending_or_receiving {e : Proc}
    (h : ({ e with pFlags := e.pFlags ||| receiving } : Proc).isSending) : e.isSending := by
  intro hzero
  refine h ?_
  change (e.pFlags ||| receiving) &&& sending = 0
  rw [BitVec.and_or_distrib_right, hzero]
  decide

theorem tame_assert {exp : String} {c : Prop} [Decidable c] {I : Kernel → Prop} :
    Tame I InRange (assert exp c) := .ensure InRange.assertion

theorem tame_schedule : Tame Kernel.SendersInRange InRange schedule := fun _ hk =>
  wp_schedule (fun _ _ _ q hq => hk q hq) fun _ => InRange.diverge

theorem tame_va2la {va : Addr} : Tame Kernel.SendersInRange InRange (va2la p va) :=
  .bind .get fun _ => .bind (.onlyIf tame_assert) fun _ => .pure _

theorem tame_put {g : Kernel → Copy} :
    Tame Kernel.SendersInRange InRange (modify fun k => k.put (g k) : KM Unit) :=
  .modify fun _ hk => hk.congr rfl

theorem tame_block : Tame Kernel.SendersInRange InRange (block p) :=
  .bind .get fun _ => .bind tame_assert fun _ => tame_schedule

theorem tame_unblock : Tame Kernel.SendersInRange InRange (unblock p) :=
  .bind .get fun _ => tame_assert

/-! ## The walks along `p_sendto` -/

theorem wp_procAt_eq {Q : Pid → Kernel → Prop} {E : Halt → Kernel → Prop} (h : i = d.val) :
    wp (procAt i) Q E k ↔ Q d k := by
  rw [h]
  exact wp_procAt

/-- Printing a path stays on it. -/
theorem wp_printPath (h : SendPath k x p) :
    wp (printPath x fuel p) (fun _ k' => k' = k) (fun e _ => InRange e) k := by
  induction fuel generalizing p with
  | zero => exact InRange.diverge
  | succ fuel ih =>
    rw [printPath, wp_bind, wp_get, wp_bind, wp_assert]
    refine ⟨fun _ => ?_, fun _ => InRange.assertion⟩
    rw [wp_bind]
    cases h with
    | last _ hto =>
      rw [wp_procAt_eq hto, if_neg (not_not.mpr rfl)]
      rfl
    | next _ hto hq =>
      rw [wp_procAt_eq hto, wp_ite]
      exact ⟨fun _ => ih hq, fun _ => rfl⟩

/-- The walk from `dest` stays in the table, and what it prints is a path. -/
theorem wp_deadlockLoop (hk : k.SendersInRange) (hpath : SendPath k x p → SendPath k x d) :
    wp (deadlockLoop x d fuel p) (fun _ k' => k' = k) (fun e _ => InRange e) k := by
  induction fuel generalizing p with
  | zero => exact InRange.diverge
  | succ fuel ih =>
    rw [deadlockLoop, wp_bind, wp_get, wp_ite]
    refine ⟨fun hsending => ?_, fun _ => rfl⟩
    rw [wp_ite]
    refine ⟨fun hto => ?_, fun _ => ?_⟩
    · rw [wp_bind]
      refine (wp_printPath (hpath (.last hsending hto))).mono (fun _ _ h => ?_) fun _ _ h => h
      rw [h]
      rfl
    · obtain ⟨q, hq⟩ := hk p hsending
      rw [wp_bind, wp_procAt_eq hq]
      exact ih fun h => hpath (.next hsending hq h)

theorem tame_deadlock : Tame Kernel.SendersInRange InRange (deadlock x d) := fun _ hk =>
  (wp_deadlockLoop hk id).mono (fun _ _ h => h ▸ hk) fun _ _ h => h

/-! ## Sending -/

theorem tame_assertReleased {a b c d : String} :
    Tame Kernel.SendersInRange InRange (assertReleased p a b c d) :=
  .bind .get fun _ => .bind tame_assert fun _ => .bind tame_assert fun _ => .bind tame_assert fun _ =>
    tame_assert

theorem tame_deliver : Tame Kernel.SendersInRange InRange (deliver p q m) :=
  .bind .get fun _ => .bind tame_assert fun _ => .bind tame_assert fun _ => .bind tame_va2la fun _ =>
    .bind tame_va2la fun _ => .bind tame_put fun _ => .bind (tame_setProc fun _ h => ⟨h, rfl⟩) fun _ =>
    .bind (tame_setProc fun _ h => ⟨isSending_and h, rfl⟩) fun _ =>
    .bind (tame_setProc fun _ h => ⟨h, rfl⟩) fun _ => .bind tame_unblock fun _ =>
    .bind tame_assertReleased fun _ => tame_assertReleased

theorem tame_queueEnd : Tame Kernel.SendersInRange InRange (queueEnd p) := by
  refine .bind .get fun k => ?_
  split
  · exact .pure _
  · exact .throw InRange.diverge

theorem tame_enqueue : Tame Kernel.SendersInRange InRange (enqueue p q) := by
  refine .bind .get fun k => ?_
  split
  · exact .bind tame_queueEnd fun _ => .bind (tame_setProc fun _ h => ⟨h, rfl⟩) fun _ =>
      tame_setProc fun _ h => ⟨h, rfl⟩
  · exact .bind (tame_setProc fun _ h => ⟨h, rfl⟩) fun _ => tame_setProc fun _ h => ⟨h, rfl⟩

/-- The sender is in range again once `p_sendto` is set. -/
theorem tame_awaitReceiver : Tame Kernel.SendersInRange InRange (awaitReceiver p q m) := by
  have rest : Tame Kernel.SendersInRange InRange (do
      setProc p ({ · with pMsg := m })
      enqueue p q
      block p
      let k ← get
      assert "sender->p_flags == SENDING" ((k.procTable p).pFlags = sending)
      assert "sender->p_msg != 0" ((k.procTable p).pMsg ≠ 0)
      assert "sender->p_recvfrom == NO_TASK" ((k.procTable p).pRecvfrom = noTask)
      assert "sender->p_sendto == dest" ((k.procTable p).pSendto = q.val)) :=
    .bind (tame_setProc fun _ h => ⟨h, rfl⟩) fun _ => .bind tame_enqueue fun _ =>
      .bind tame_block fun _ => .bind .get fun _ => .bind tame_assert fun _ =>
      .bind tame_assert fun _ => .bind tame_assert fun _ => tame_assert
  intro k hk
  rw [awaitReceiver, wp_bind, wp_setProc, wp_bind, wp_get, wp_bind, wp_assert]
  refine ⟨fun _ => ?_, fun _ => InRange.assertion⟩
  rw [wp_bind, wp_setProc, Kernel.setProc_setProc]
  exact rest _ (hk.setProc fun _ => ⟨q, rfl⟩)

/-- A SEND to an index of the table. -/
theorem tame_msgSend (hi : pidOf i ≠ none) : Tame Kernel.SendersInRange InRange (msgSend p i m) := by
  obtain ⟨d, hd⟩ := Option.ne_none_iff_exists'.mp hi
  refine fun k hk => ?_
  rw [msgSend, wp_bind, wp_procAt_eq (pidOf_eq_some.mp hd)]
  refine Tame.bind tame_assert (fun _ => .bind tame_deadlock fun _ => .bind .get fun _ => ?_) k hk
  exact .bind (.onlyIf (.throw InRange.panic)) fun _ => .ite (.bind tame_deliver fun _ => .pure _)
    (.bind tame_awaitReceiver fun _ => .pure _)

/-! ## Receiving -/

theorem tame_takeInterrupt : Tame Kernel.SendersInRange InRange (takeInterrupt p m) :=
  .bind tame_assert fun _ => .bind tame_va2la fun _ => .bind tame_put fun _ =>
    .bind (tame_setProc fun _ h => ⟨h, rfl⟩) fun _ => .bind .get fun _ => .bind tame_assert fun _ =>
    .bind tame_assert fun _ => .bind tame_assert fun _ => tame_assert

theorem tame_assertMatch : Tame Kernel.SendersInRange InRange (assertMatch p q) :=
  .bind .get fun _ => .bind tame_assert fun _ => .bind tame_assert fun _ => .bind tame_assert fun _ =>
    .bind tame_assert fun _ => .bind tame_assert fun _ => .bind tame_assert fun _ =>
    .bind tame_assert fun _ => .bind tame_assert fun _ => tame_assert

theorem tame_unlink {prev : Option Pid} : Tame Kernel.SendersInRange InRange (unlink p q prev) := by
  refine .bind .get fun k => ?_
  split
  · exact .bind tame_assert fun _ => .bind (tame_setProc fun _ h => ⟨h, rfl⟩) fun _ =>
      tame_setProc fun _ h => ⟨h, rfl⟩
  · split
    · exact .throw InRange.assertion
    · exact .bind (tame_setProc fun _ h => ⟨h, rfl⟩) fun _ => tame_setProc fun _ h => ⟨h, rfl⟩

/-- The sender is released when `p_sendto` is cleared. -/
theorem tame_takeFrom {prev : Option Pid} : Tame Kernel.SendersInRange InRange (takeFrom p q prev m) := by
  have released : Tame Kernel.SendersInRange InRange (do
      setProc q ({ · with pSendto := noTask })
      setProc q fun p => { p with pFlags := p.pFlags &&& ~~~sending }
      unblock q) := by
    intro k hk
    rw [wp_bind, wp_setProc, wp_bind, wp_setProc, Kernel.setProc_setProc]
    refine tame_unblock _ (hk.setProc fun h => absurd ?_ h)
    change (k.procTable q).pFlags &&& ~~~sending &&& sending = 0
    rw [BitVec.and_assoc, show ~~~sending &&& sending = (0 : BitVec 32) by decide]
    exact BitVec.and_zero
  exact .bind tame_unlink fun _ => .bind tame_assert fun _ => .bind .get fun _ =>
    .bind tame_assert fun _ => .bind tame_va2la fun _ => .bind tame_va2la fun _ =>
    .bind tame_put fun _ => .bind (tame_setProc fun _ h => ⟨h, rfl⟩) fun _ => released

theorem tame_awaitSender : Tame Kernel.SendersInRange InRange (awaitSender p i m) :=
  .bind (tame_setProc fun _ h => ⟨isSending_or_receiving h, rfl⟩) fun _ =>
    .bind (tame_setProc fun _ h => ⟨h, rfl⟩) fun _ => .bind (tame_setProc fun _ h => ⟨h, rfl⟩) fun _ =>
    .bind tame_block fun _ => .bind .get fun _ => .bind tame_assert fun _ => .bind tame_assert fun _ =>
    .bind tame_assert fun _ => .bind tame_assert fun _ => tame_assert

/-- The index is only used after the test that it is one. -/
theorem tame_findSender : Tame Kernel.SendersInRange InRange (findSender p i) := by
  have found (x : Pid) (prev : Option Pid) : Tame Kernel.SendersInRange InRange (do
      assertMatch p x
      pure (some (x, prev)) : KM (Option (Pid × Option Pid))) :=
    .bind tame_assertMatch fun _ => .pure _
  refine .bind .get fun k => ?_
  split
  · split
    · exact found _ _
    · exact .pure _
  · split
    · rename_i hrange
      rw [procAt, pidOf, dif_pos hrange]
      refine .bind (.pure _) fun x => ?_
      split
      · refine .bind tame_assert fun _ => ?_
        split
        · exact found _ _
        · exact .throw InRange.diverge
      · exact .pure _
    · exact .pure _

theorem tame_msgReceive : Tame Kernel.SendersInRange InRange (msgReceive p i m) := by
  refine .bind .get fun k => .bind tame_assert fun _ => ?_
  refine .ite (.bind tame_takeInterrupt fun _ => .pure _) (.bind tame_findSender fun r => ?_)
  cases r with
  | none => exact .bind tame_awaitSender fun _ => .pure _
  | some xq => exact .bind tame_takeFrom fun _ => .pure _

/-! ## Calls and interrupts -/

/-- The indices that stand for no process are not for sending. -/
def Addressed (function srcDest : Int) : Prop :=
  ¬ (function = send ∧ (srcDest = anyTask ∨ srcDest = interrupt))

theorem tame_sysSendrec {function : Int} (h : Addressed function i) :
    Tame Kernel.SendersInRange InRange (sysSendrec function i m p) := by
  refine .bind .get fun _ => .bind tame_assert fun _ => fun k hk => ?_
  rw [wp_bind, wp_assert]
  refine ⟨fun hrange => ?_, fun _ => InRange.assertion⟩
  refine Tame.bind tame_va2la (fun la => ?_) k hk
  refine .bind (.modify fun _ hk => hk.congr rfl) fun _ => .bind tame_assert fun _ => ?_
  split
  · rename_i hsend
    refine tame_msgSend ?_
    rcases hrange with hrange | hany
    · rw [pidOf, dif_pos hrange]
      exact Option.some_ne_none _
    · exact absurd ⟨hsend, hany⟩ h
  · split
    · exact tame_msgReceive
    · exact .throw InRange.panic

theorem tame_informInt : Tame Kernel.SendersInRange InRange (informInt p) := by
  refine .bind .get fun k => ?_
  split
  · exact .bind tame_put fun _ => .bind (tame_setProc fun _ h => ⟨h, rfl⟩) fun _ =>
      .bind (tame_setProc fun _ h => ⟨h, rfl⟩) fun _ =>
      .bind (tame_setProc fun _ h => ⟨isSending_and h, rfl⟩) fun _ =>
      .bind (tame_setProc fun _ h => ⟨h, rfl⟩) fun _ => .bind .get fun _ => .bind tame_assert fun _ =>
      .bind tame_unblock fun _ => tame_assertReleased
  · exact tame_setProc fun _ h => ⟨h, rfl⟩

theorem tame_clockHandler : Tame Kernel.SendersInRange InRange clockHandler := by
  refine .bind (.modify fun _ hk => hk.congr rfl) fun _ => .bind .get fun k => .bind ?_ fun _ => ?_
  · exact .onlyIf (tame_setProc fun _ h => ⟨h, rfl⟩)
  · refine .bind (.onlyIf tame_informInt) fun _ => .bind .get fun k => ?_
    exact .ite (.pure _) (.ite (.pure _) tame_schedule)

/-- A call with an address, or an interrupt. -/
def Event.Addressed : Event → Prop
  | sendrec function srcDest _ => Dlos.Addressed function srcDest
  | _ => True

theorem Event.tame {e : Event} (h : e.Addressed) : Tame Kernel.SendersInRange InRange e.run := by
  cases e with
  | sendrec function srcDest m => exact .bind .get fun _ => .bind (tame_sysSendrec h) fun _ => .pure _
  | write la content => exact .modify fun _ hk => hk.congr rfl
  | informInt task => exact tame_informInt
  | clock => exact tame_clockHandler
  | key pressed => exact .modify fun _ hk => hk.congr rfl

/-! ## A SEND to nobody -/

/-- The assertions at the entry of `sys_sendrec` hold. -/
structure Enters (k : Kernel) (srcDest : Int) (m : Addr) (p : Pid) : Prop where
  first : k.kReenter = 0
  range : (0 ≤ srcDest ∧ srcDest < (nrTasks + nrProcs : Nat)) ∨ srcDest = anyTask ∨ srcDest = interrupt
  address : p.val < nrTasks + nrNativeProcs → ldtSegLinear (k.procTable p) indexLdtRw + m = m
  other : (p.val : Int) ≠ srcDest

/-- `proc_table + dest` is outside the table. -/
theorem wp_sysSendrec_wild {function : Int} (h : Enters k i m p) (ha : ¬ Addressed function i) :
    wp (sysSendrec function i m p) (fun _ _ => False) (fun e _ => e = .wildIndex) k := by
  obtain ⟨hsend, hany⟩ := not_not.mp ha
  have hnone : pidOf i = none := by
    rcases hany with rfl | rfl
    · decide
    · decide
  rw [sysSendrec, wp_bind, wp_get, wp_bind, wp_assert_of h.first, wp_bind, wp_assert_of h.range, wp_bind,
    va2la, wp_bind, wp_get, linear, wp_bind, wp_onlyIf]
  have hsent (la : Addr) (k' : Kernel) : wp (do
      modify fun k => k.setMsg la { k.msgs la with source := p.val }
      assert "mla->source != src_dest" ((p.val : Int) ≠ i)
      if function = send then msgSend p i m
      else if function = receive then msgReceive p i m
      else throw (.panic ("\x7bsys_sendrec\x7d invalid function: " ++ toString function ++ " (SEND:" ++
        toString send ++ ", RECEIVE:" ++ toString receive ++ ").")) : KM Int)
      (fun _ _ => False) (fun e _ => e = .wildIndex) k' := by
    rw [wp_bind, wp_modify, wp_bind, wp_assert_of h.other, if_pos hsend, msgSend, wp_bind, procAt, hnone]
    rfl
  refine ⟨fun hp => ?_, fun _ => hsent _ _⟩
  rw [wp_assert_of (h.address hp)]
  exact hsent _ _

end

end Dlos
