import Mathlib.Logic.Basic

/-!
# Programs that change a state and may stop

A program is an `EStateM ε σ α`: from a state it ends normally with a value, or stops for a
reason `ε`; either way it leaves a state. `wp x Q E s` says that from `s` the program ends
normally in `Q` or stops in `E`. The lemmas push `wp` through the program's constructs, so a
straight-line program is run symbolically by `simp`; loops have their own rules.
-/

namespace Program

variable {ε σ α β : Type}

def wp (x : EStateM ε σ α) (Q : α → σ → Prop) (E : ε → σ → Prop) (s : σ) : Prop :=
  match x s with
  | .ok a t => Q a t
  | .error e t => E e t

/-- Stop unless the condition holds. -/
def ensure (c : Prop) [Decidable c] (e : ε) : EStateM ε σ Unit :=
  if c then pure () else throw e

/-- `if (c) x;` -/
def onlyIf (c : Prop) [Decidable c] (x : EStateM ε σ Unit) :
    EStateM ε σ Unit :=
  if c then x else pure ()

/-- Run a program for its final state and the reason it stopped for, if it did. -/
def exec (x : EStateM ε σ α) (s : σ) : σ × Option ε :=
  match x s with
  | .ok _ t => (t, none)
  | .error e t => (t, some e)

variable {x : EStateM ε σ α} {f : α → EStateM ε σ β} {Q Q' : α → σ → Prop} {R : β → σ → Prop}
  {E E' : ε → σ → Prop} {s t : σ} {a : α} {e : ε}

theorem wp_of_ok (h : x s = .ok a t) : wp x Q E s ↔ Q a t := by rw [wp, h]

theorem wp_of_error (h : x s = .error e t) : wp x Q E s ↔ E e t := by rw [wp, h]

instance [∀ a t, Decidable (Q a t)] [∀ e t, Decidable (E e t)] : Decidable (wp x Q E s) :=
  match h : x s with
  | .ok a t => decidable_of_iff (Q a t) (wp_of_ok h).symm
  | .error e t => decidable_of_iff (E e t) (wp_of_error h).symm

theorem wp_congr {y : EStateM ε σ α} (h : x s = y t) : wp x Q E s ↔ wp y Q E t := by
  rw [wp, wp, h]

/-- A program is its outcomes: a specification holds of each. -/
theorem wp_iff : wp x Q E s ↔
    (∀ a t, x s = .ok a t → Q a t) ∧ ∀ e t, x s = .error e t → E e t := by
  cases h : x s with
  | ok a t => simp [wp_of_ok h]
  | error e t => simp [wp_of_error h]

/-- What holds of every end of a program holds of its execution. -/
theorem exec_of_wp {P : σ → Option ε → Prop}
    (h : wp x (fun _ t => P t none) (fun e t => P t (some e)) s) :
    P (exec x s).1 (exec x s).2 := by
  unfold exec
  cases hx : x s with
  | ok a t => exact (wp_of_ok hx).mp h
  | error e t => exact (wp_of_error hx).mp h

theorem wp_of_exec {P : σ → Option ε → Prop} (h : P (exec x s).1 (exec x s).2) :
    wp x (fun _ t => P t none) (fun e t => P t (some e)) s := by
  unfold exec at h
  cases hx : x s with
  | ok a t =>
    rw [hx] at h
    exact (wp_of_ok hx).mpr h
  | error e t =>
    rw [hx] at h
    exact (wp_of_error hx).mpr h

theorem ok_of_exec {x : EStateM ε σ Unit} (h : (exec x s).2 = none) :
    x s = .ok () (exec x s).1 := by
  unfold exec at h ⊢
  cases hx : x s with
  | ok a t => rfl
  | error e t => simp [hx] at h

theorem wp.mono (h : wp x Q E s) (hQ : ∀ a t, Q a t → Q' a t) (hE : ∀ e t, E e t → E' e t) :
    wp x Q' E' s := by
  rw [wp_iff] at h ⊢
  exact ⟨fun a t ht => hQ a t (h.1 a t ht), fun e t ht => hE e t (h.2 e t ht)⟩

theorem wp.imp (h : wp x Q E s) (hQ : ∀ a t, Q a t → Q' a t) : wp x Q' E s :=
  h.mono hQ fun _ _ he => he

/-- Whatever the end of the program, it is one of the two. -/
theorem wp.elim {P : Prop} (h : wp x Q E s) (hQ : ∀ a t, Q a t → P) (hE : ∀ e t, E e t → P) : P := by
  cases hx : x s with
  | ok a t => exact hQ a t ((wp_of_ok hx).mp h)
  | error e t => exact hE e t ((wp_of_error hx).mp h)

/-- A program that does not stop ends normally. -/
theorem wp.exists_ok (h : wp x Q (fun _ _ => False) s) : ∃ a t, x s = .ok a t ∧ Q a t :=
  match hx : x s with
  | .ok a t => ⟨a, t, rfl, (wp_of_ok hx).mp h⟩
  | .error _ _ => ((wp_of_error hx).mp h).elim

theorem wp_trivial : wp x (fun _ _ => True) (fun _ _ => True) s :=
  wp_iff.mpr ⟨fun _ _ _ => trivial, fun _ _ _ => trivial⟩

theorem wp.and (h : wp x Q E s) (h' : wp x Q' E' s) :
    wp x (fun a t => Q a t ∧ Q' a t) (fun e t => E e t ∧ E' e t) s := by
  rw [wp_iff] at h h' ⊢
  exact ⟨fun a t ht => ⟨h.1 a t ht, h'.1 a t ht⟩, fun e t ht => ⟨h.2 e t ht, h'.2 e t ht⟩⟩

/-- A specification that the end of the program meets exactly under a condition. -/
theorem wp_iff_of {C : Prop} (h : wp x (fun a t => Q a t ↔ C) (fun _ _ => False) s) :
    wp x Q (fun _ _ => False) s ↔ C := by
  constructor
  · intro hw
    exact (h.and hw).elim (fun _ _ ht => ht.1.mp ht.2) fun _ _ ht => ht.1.elim
  · intro hc
    exact h.mono (fun _ _ ht => ht.mpr hc) fun _ _ ht => ht

/-! ## Pushing `wp` through a program -/

@[simp] theorem wp_pure : wp (pure a : EStateM ε σ α) Q E s ↔ Q a s := Iff.rfl

@[simp] theorem wp_throw : wp (throw e : EStateM ε σ α) Q E s ↔ E e s := Iff.rfl

theorem bind_of_ok (h : x s = .ok a t) : (x >>= f) s = f a t := by
  change EStateM.bind x f s = f a t
  rw [EStateM.bind, h]

theorem bind_of_error (h : x s = .error e t) : (x >>= f) s = .error e t := by
  change EStateM.bind x f s = .error e t
  rw [EStateM.bind, h]

@[simp] theorem wp_bind :
    wp (x >>= f) R E s ↔ wp x (fun a t => wp (f a) R E t) E s := by
  cases h : x s with
  | ok a t => rw [wp_of_ok h, wp, wp, bind_of_ok h]
  | error e t => rw [wp_of_error h, wp_of_error (bind_of_error h)]

/-- Whatever the first part does. -/
theorem wp_bind_any (hE : ∀ e t, E e t) (hf : ∀ a t, wp (f a) R E t) : wp (x >>= f) R E s :=
  wp_bind.mpr (wp_trivial.mono (fun a t _ => hf a t) fun e t _ => hE e t)

@[simp] theorem wp_map {g : α → β} : wp (g <$> x) R E s ↔ wp x (fun a t => R (g a) t) E s := by
  rw [← bind_pure_comp, wp_bind]
  rfl

@[simp] theorem wp_get {Q : σ → σ → Prop} {E : ε → σ → Prop} :
    wp (get : EStateM ε σ σ) Q E s ↔ Q s s := Iff.rfl

@[simp] theorem wp_modify {g : σ → σ} {Q : Unit → σ → Prop} :
    wp (modify g : EStateM ε σ Unit) Q E s ↔ Q () (g s) := Iff.rfl

@[simp] theorem wp_ite {c : Prop} [Decidable c] {y : EStateM ε σ α} :
    wp (if c then x else y) Q E s ↔ (c → wp x Q E s) ∧ (¬c → wp y Q E s) := by
  by_cases hc : c <;> simp [hc]

@[simp] theorem wp_ensure {c : Prop} [Decidable c] {Q : Unit → σ → Prop} :
    wp (ensure c e) Q E s ↔ (c → Q () s) ∧ (¬c → E e s) := by
  simp [ensure]

@[simp] theorem wp_onlyIf {c : Prop} [Decidable c] {x : EStateM ε σ Unit}
    {Q : Unit → σ → Prop} :
    wp (onlyIf c x) Q E s ↔ (c → wp x Q E s) ∧ (¬c → Q () s) := by
  simp [onlyIf]

@[simp] theorem wp_forM_nil {g : α → EStateM ε σ PUnit} {Q : PUnit → σ → Prop} :
    wp (([] : List α).forM g) Q E s ↔ Q ⟨⟩ s := Iff.rfl

@[simp] theorem wp_forM_cons {l : List α} {g : α → EStateM ε σ PUnit} {Q : PUnit → σ → Prop} :
    wp ((a :: l).forM g) Q E s ↔ wp (g a) (fun _ t => wp (l.forM g) Q E t) E s := wp_bind

/-- A loop over a list, with an invariant that says how far it has come. -/
theorem wp_forM_upTo {l : List α} {g : α → EStateM ε σ PUnit} {I : List α → σ → Prop}
    (hstart : I [] s)
    (hstep : ∀ l₁ a l₂, l = l₁ ++ a :: l₂ → ∀ t, I l₁ t → wp (g a) (fun _ => I (l₁ ++ [a])) E t) :
    wp (l.forM g) (fun _ => I l) E s := by
  have hrest (l₁ l₂ : List α) (hl : l = l₁ ++ l₂) (t : σ) (ht : I l₁ t) :
      wp (l₂.forM g) (fun _ => I l) E t := by
    induction l₂ generalizing l₁ t with
    | nil =>
      rw [List.append_nil] at hl
      exact hl ▸ ht
    | cons a l₂ ih =>
      rw [wp_forM_cons]
      refine (hstep l₁ a l₂ hl t ht).imp fun _ u hu => ih (l₁ ++ [a]) ?_ u hu
      rw [hl, List.append_assoc, List.singleton_append]
  exact hrest [] l rfl s hstart

/-! ## Parts of a state -/

/-- Run a program on a part of a larger state. -/
def focus {τ : Type} (get : τ → σ) (set : σ → τ → τ) (x : EStateM ε σ α) : EStateM ε τ α := fun t =>
  match x (get t) with
  | .ok a s => .ok a (set s t)
  | .error e s => .error e (set s t)

theorem wp_focus {τ : Type} {get : τ → σ} {set : σ → τ → τ} {Q : α → τ → Prop} {E : ε → τ → Prop}
    {t : τ} : wp (focus get set x) Q E t ↔
      wp x (fun a s => Q a (set s t)) (fun e s => E e (set s t)) (get t) := by
  unfold wp focus
  cases x (get t) <;> rfl

/-! ## Invariants of programs -/

/-- However the program ends, what held before holds afterwards. -/
def Preserves (I : σ → Prop) (x : EStateM ε σ α) : Prop :=
  ∀ s, I s → wp x (fun _ => I) (fun _ => I) s

namespace Preserves

variable {I : σ → Prop}

theorem bind (hx : Preserves I x) (hf : ∀ a, Preserves I (f a)) : Preserves I (x >>= f) :=
  fun s hs => wp_bind.mpr ((hx s hs).mono (fun a t ht => hf a t ht) fun _ _ h => h)

theorem discard (hx : Preserves I x) : Preserves I (discard x) := .bind hx fun _ _ hs => hs

/-- The rest of a program starts where the invariant holds. -/
theorem wp_bind (hx : Preserves I x) (hE : ∀ e t, E e t) (hs : I s)
    (hf : ∀ a t, I t → wp (f a) R E t) : wp (x >>= f) R E s :=
  Program.wp_bind.mpr ((hx s hs).mono hf fun e t _ => hE e t)

theorem pure (a : α) : Preserves I (pure a : EStateM ε σ α) := fun _ hs => hs

theorem throw (e : ε) : Preserves I (throw e : EStateM ε σ α) := fun _ hs => hs

theorem get : Preserves I (get : EStateM ε σ σ) := fun _ hs => hs

theorem modify {g : σ → σ} (h : ∀ s, I s → I (g s)) :
    Preserves I (modify g : EStateM ε σ Unit) := fun s hs => h s hs

theorem ite {c : Prop} [Decidable c] {y : EStateM ε σ α} (hx : Preserves I x)
    (hy : Preserves I y) : Preserves I (if c then x else y) := by
  split
  · exact hx
  · exact hy

theorem ensure {c : Prop} [Decidable c] : Preserves I (ensure c e) := .ite (.pure ()) (.throw e)

theorem onlyIf {c : Prop} [Decidable c] {x : EStateM ε σ Unit} (hx : Preserves I x) :
    Preserves I (onlyIf c x) := .ite hx (.pure ())

theorem forM {l : List α} {g : α → EStateM ε σ PUnit} (h : ∀ a, Preserves I (g a)) :
    Preserves I (l.forM g) := by
  induction l with
  | nil => exact .pure _
  | cons a l ih => exact .bind (h a) fun _ => ih

/-- A program on a part of a state preserves what does not depend on that part. -/
theorem focus {τ : Type} {get : τ → σ} {set : σ → τ → τ} {J : τ → Prop}
    (h : ∀ s t, J t → J (set s t)) : Preserves J (focus get set x) := by
  intro t ht
  rw [wp_focus, wp_iff]
  exact ⟨fun _ s _ => h s t ht, fun _ s _ => h s t ht⟩

theorem and {J : σ → Prop} (hI : Preserves I x) (hJ : Preserves J x) :
    Preserves (fun s => I s ∧ J s) x := fun s hs => (hI s hs.1).and (hJ s hs.2)

end Preserves

/-! ## Programs that stop for some reasons only -/

/-- From the invariant the program comes back to it, or stops for one of the reasons. -/
def Tame (I : σ → Prop) (R : ε → Prop) (x : EStateM ε σ α) : Prop :=
  ∀ s, I s → wp x (fun _ => I) (fun e _ => R e) s

namespace Tame

variable {I : σ → Prop} {R : ε → Prop}

theorem bind (hx : Tame I R x) (hf : ∀ a, Tame I R (f a)) : Tame I R (x >>= f) :=
  fun s hs => wp_bind.mpr ((hx s hs).mono (fun a t ht => hf a t ht) fun _ _ h => h)

theorem pure (a : α) : Tame I R (pure a : EStateM ε σ α) := fun _ hs => hs

theorem throw (h : R e) : Tame I R (throw e : EStateM ε σ α) := fun _ _ => h

theorem get : Tame I R (get : EStateM ε σ σ) := fun _ hs => hs

theorem modify {g : σ → σ} (h : ∀ s, I s → I (g s)) : Tame I R (modify g : EStateM ε σ Unit) :=
  fun s hs => h s hs

theorem ite {c : Prop} [Decidable c] {y : EStateM ε σ α} (hx : Tame I R x) (hy : Tame I R y) :
    Tame I R (if c then x else y) := by
  split
  · exact hx
  · exact hy

theorem ensure {c : Prop} [Decidable c] (h : R e) : Tame I R (ensure c e) :=
  .ite (.pure ()) (.throw h)

theorem onlyIf {c : Prop} [Decidable c] {x : EStateM ε σ Unit} (hx : Tame I R x) :
    Tame I R (onlyIf c x) := .ite hx (.pure ())

theorem forM {l : List α} {g : α → EStateM ε σ PUnit} (h : ∀ a, Tame I R (g a)) :
    Tame I R (l.forM g) := by
  induction l with
  | nil => exact .pure _
  | cons a l ih => exact .bind (h a) fun _ => ih

end Tame

end Program
