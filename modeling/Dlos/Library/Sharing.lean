import Mathlib.Data.Fintype.Prod
import Mathlib.Data.Finset.Card
import Mathlib.Logic.Function.Basic

/-!
# Shared entries that are counted

Holders share entries, and entries share objects. Each entry counts its holders, each object the holders
whose entries lead to it, and an entry without a holder is free. `Counted` says that the counts are
right; taking a new entry, sharing one and giving one up keep them so.
-/

universe u v w

namespace Sharing

variable {κ : Type u} {δ : Type v} {ι : Type w}

/-- The number of holders of an entry. -/
def refs [Fintype κ] [DecidableEq δ] (f : κ → Option δ) (d : δ) : Nat := (Finset.univ.filter fun x => f x = some d).card

/-- The objects that the holders' entries lead to. -/
def through (f : κ → Option δ) (g : δ → Option ι) (x : κ) : Option ι := (f x).bind g

section

variable {f : κ → Option δ} {g : δ → Option ι} {d e : δ} {q : ι} {x : κ}

theorem through_update [DecidableEq κ] {o : Option δ} :
    through (Function.update f x o) g = Function.update (through f g) x (o.bind g) := by
  funext y
  by_cases hy : y = x
  · simp [through, hy]
  · simp [through, hy]

variable [Fintype κ] [DecidableEq δ]

theorem refs_pos (h : f x = some d) : 0 < refs f d :=
  Finset.card_pos.mpr ⟨x, Finset.mem_filter.mpr ⟨Finset.mem_univ x, h⟩⟩

theorem refs_eq_zero : refs f d = 0 ↔ ∀ x, f x ≠ some d := by
  rw [refs, Finset.card_eq_zero, Finset.filter_eq_empty_iff]
  exact ⟨fun h x => h (Finset.mem_univ x), fun h x _ => h x⟩

/-- An entry that nobody holds leads nowhere. -/
theorem through_update_right {o : Option ι} (h : refs f d = 0) :
    through f (Function.update g d o) = through f g := by
  funext y
  cases hy : f y with
  | none => simp [through, hy]
  | some e =>
    have he : e ≠ d := fun he => refs_eq_zero.mp h y (he ▸ hy)
    simp [through, hy, he]

variable [DecidableEq κ]

/-- A holder that held nothing takes an entry. -/
theorem refs_take (h : f x = none) :
    refs (Function.update f x (some d)) e = refs f e + if e = d then 1 else 0 := by
  split_ifs with he
  · subst he
    have hinsert : (Finset.univ.filter fun y => Function.update f x (some e) y = some e) =
        insert x (Finset.univ.filter fun y => f y = some e) := by
      ext y
      by_cases hy : y = x
      · simp [hy]
      · simp [hy]
    have hfresh : x ∉ Finset.univ.filter fun y => f y = some e := by simp [h]
    rw [refs, hinsert, Finset.card_insert_of_notMem hfresh, refs]
  · have hsame : (Finset.univ.filter fun y => Function.update f x (some d) y = some e) =
        Finset.univ.filter fun y => f y = some e := by
      ext y
      by_cases hy : y = x
      · simp [hy, h, Ne.symm he]
      · simp [hy]
    rw [refs, hsame, refs, Nat.add_zero]

/-- A holder gives its entry up. -/
theorem refs_drop (h : f x = some d) :
    refs (Function.update f x none) e + (if e = d then 1 else 0) = refs f e := by
  have htake := refs_take (f := Function.update f x none) (d := d) (e := e) (Function.update_self x none f)
  rw [Function.update_idem, ← h, Function.update_eq_self] at htake
  exact htake.symm

end

/-- Entry `d` counts its holders in `c d` and leads to `g d`; object `q` has `n q` references, of which
`extra q` are not those of holders. -/
structure Counted [Fintype κ] [DecidableEq δ] [DecidableEq ι] (f : κ → Option δ) (g : δ → Option ι) (c : δ → Int) (n extra : ι → Int) : Prop where
  entry : ∀ d, c d = refs f d
  free : ∀ d, g d = none ↔ refs f d = 0
  object : ∀ q, n q = refs (through f g) q + extra q

namespace Counted

variable [Fintype κ] [DecidableEq δ] [DecidableEq ι] {f : κ → Option δ} {g : δ → Option ι} {c : δ → Int}
  {n extra : ι → Int} {d e : δ} {q : ι} {x : κ}

theorem holds (h : Counted f g c n extra) (hx : f x = some d) : ∃ q, g d = some q := by
  have hne : g d ≠ none := fun hnone => (refs_pos hx).ne' ((h.free d).mp hnone)
  exact Option.ne_none_iff_exists'.mp hne

/-- An entry that leads to an object is held. -/
theorem exists_holder (h : Counted f g c n extra) (hd : g d = some q) : ∃ x, f x = some d := by
  by_contra hno
  have hzero : refs f d = 0 := refs_eq_zero.mpr fun x hx => hno ⟨x, hx⟩
  exact Option.some_ne_none q (hd.symm.trans ((h.free d).mpr hzero))

/-- What an entry leads to is referenced. -/
theorem extra_lt (h : Counted f g c n extra) (hd : g d = some q) : extra q < n q := by
  obtain ⟨x, hx⟩ := h.exists_holder hd
  have hthrough : through f g x = some q := by rw [through, hx, Option.bind_some, hd]
  have hpos := refs_pos hthrough
  have hobject := h.object q
  omega

/-- The objects are counted in another way. -/
theorem recount {n' extra' : ι → Int} (h : Counted f g c n extra)
    (hn : ∀ q, n' q - extra' q = n q - extra q) : Counted f g c n' extra' where
  entry := h.entry
  free := h.free
  object q := by
    have hq := h.object q
    have hq' := hn q
    omega

variable [DecidableEq κ]

/-- A holder takes a free entry, which is to lead to `q`. -/
theorem take (h : Counted f g c n extra) (hx : f x = none) (hd : g d = none) :
    Counted (Function.update f x (some d)) (Function.update g d (some q)) (Function.update c d 1)
      (Function.update n q (n q + 1)) extra := by
  have hzero : refs f d = 0 := (h.free d).mp hd
  refine ⟨fun e => ?_, fun e => ?_, fun r => ?_⟩
  · by_cases he : e = d
    · subst he
      rw [Function.update_self, refs_take hx, if_pos rfl, hzero]
      rfl
    · rw [Function.update_of_ne he, refs_take hx, if_neg he, h.entry e]
      rfl
  · by_cases he : e = d
    · subst he
      rw [Function.update_self, refs_take hx, if_pos rfl]
      simp
    · rw [Function.update_of_ne he, refs_take hx, if_neg he, h.free e, Nat.add_zero]
  · have hnone : through f (Function.update g d (some q)) x = none := by rw [through, hx, Option.bind_none]
    have hthrough : through (Function.update f x (some d)) (Function.update g d (some q)) =
        Function.update (through f (Function.update g d (some q))) x (some q) := by
      rw [through_update, Option.bind_some, Function.update_self]
    rw [hthrough, refs_take hnone, through_update_right hzero, Function.update_apply, h.object q]
    split_ifs with hr
    · subst hr
      push_cast
      omega
    · rw [Nat.add_zero, h.object r]

/-- A holder shares an entry that another one holds. -/
theorem share (h : Counted f g c n extra) (hx : f x = none) (hd : g d = some q) :
    Counted (Function.update f x (some d)) g (Function.update c d (c d + 1))
      (Function.update n q (n q + 1)) extra := by
  have hpos : refs f d ≠ 0 := fun hzero => Option.some_ne_none q (hd.symm.trans ((h.free d).mpr hzero))
  refine ⟨fun e => ?_, fun e => ?_, fun r => ?_⟩
  · rw [refs_take hx, Function.update_apply, h.entry d, h.entry e]
    split_ifs with he
    · rw [he]
      rfl
    · rfl
  · rw [refs_take hx, h.free e]
    split_ifs with he
    · rw [he]
      exact ⟨fun hzero => absurd hzero hpos, False.elim⟩
    · rfl
  · have hnone : through f g x = none := by rw [through, hx, Option.bind_none]
    rw [through_update, Option.bind_some, hd, refs_take hnone, Function.update_apply, h.object q]
    split_ifs with hr
    · subst hr
      push_cast
      omega
    · rw [Nat.add_zero, h.object r]

/-- A holder gives its entry up; the last one frees it. -/
theorem drop (h : Counted f g c n extra) (hx : f x = some d) (hd : g d = some q) :
    Counted (Function.update f x none) (if c d - 1 = 0 then Function.update g d none else g)
      (Function.update c d (c d - 1)) (Function.update n q (n q - 1)) extra := by
  have hpos := refs_pos hx
  have hentry (e : δ) := refs_drop hx (e := e)
  have hthrough : through f g x = some q := by rw [through, hx, Option.bind_some, hd]
  have hobject (r : ι) := refs_drop hthrough (e := r)
  have hcount : c d - 1 = refs (Function.update f x none) d := by
    have hd' := hentry d
    rw [if_pos rfl] at hd'
    rw [h.entry d]
    omega
  have hkeep : through (Function.update f x none) (if c d - 1 = 0 then Function.update g d none else g) =
      Function.update (through f g) x none := by
    split_ifs with hlast
    · have hzero : refs (Function.update f x none) d = 0 := by omega
      rw [through_update_right hzero, through_update, Option.bind_none]
    · rw [through_update, Option.bind_none]
  refine ⟨fun e => ?_, fun e => ?_, fun r => ?_⟩
  · rw [Function.update_apply]
    split_ifs with he
    · rw [he, hcount]
    · have he' := hentry e
      rw [if_neg he, Nat.add_zero] at he'
      rw [he', h.entry e]
  · have hother (he : e ≠ d) : g e = none ↔ refs (Function.update f x none) e = 0 := by
      have he' := hentry e
      rw [if_neg he, Nat.add_zero] at he'
      rw [he', h.free e]
    split_ifs with hlast
    · by_cases he : e = d
      · subst he
        rw [Function.update_self]
        exact ⟨fun _ => by omega, fun _ => rfl⟩
      · rw [Function.update_of_ne he]
        exact hother he
    · by_cases he : e = d
      · subst he
        rw [hd]
        exact ⟨fun hnone => absurd hnone (Option.some_ne_none q), fun hzero => absurd hcount (by omega)⟩
      · exact hother he
  · have hr := hobject r
    rw [hkeep, Function.update_apply, h.object q]
    split_ifs at hr ⊢ with he
    · rw [he] at hr ⊢
      omega
    · rw [h.object r]
      omega

end Counted

end Sharing
