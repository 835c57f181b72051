-- SUMMARY: Loops of checked operations in which every operation succeeds.
import Munch.Fault
import Mathlib.Data.List.Forall2

/-! # Checked loops

If every operation of a loop succeeds, so does the loop, with the result of the
loop over the plain results. -/

namespace Munch.Checked

variable {ε α β : Type}

theorem ok_bind (a : α) (f : α → Except ε β) : Except.ok a >>= f = f a := rfl

theorem bind_eq_ok {a : Except ε α} {f : α → Except ε β} {b : β} (h : a >>= f = .ok b) :
    ∃ x, a = .ok x ∧ f x = .ok b := by
  cases a with
  | error e => cases h
  | ok x => exact ⟨x, rfl, h⟩

theorem map_eq_ok {a : Except ε α} {f : α → β} {b : β} (h : f <$> a = .ok b) :
    ∃ x, a = .ok x ∧ f x = b := by
  cases a with
  | error e => cases h
  | ok x => cases h; exact ⟨x, rfl, rfl⟩

theorem map_eq_error {a : Except ε α} {f : α → β} {e : ε} (h : f <$> a = .error e) :
    a = .error e := by
  cases a with
  | error e' => cases h; rfl
  | ok x => cases h

theorem mapError_eq_ok {ε' : Type} {a : Except ε α} {f : ε → ε'} {x : α}
    (h : a.mapError f = .ok x) : a = .ok x := by
  cases a with
  | error e => cases h
  | ok x' => cases h; rfl

theorem mapError_eq_error {ε' : Type} {a : Except ε α} {f : ε → ε'} {e : ε'}
    (h : a.mapError f = .error e) : ∃ e', a = .error e' ∧ f e' = e := by
  cases a with
  | error e' => exact ⟨e', rfl, Except.error.inj h⟩
  | ok x => cases h

theorem bind_eq_error {a : Except ε α} {f : α → Except ε β} {e : ε} (h : a >>= f = .error e) :
    a = .error e ∨ ∃ x, a = .ok x ∧ f x = .error e := by
  cases a with
  | error e' => cases h; exact .inl rfl
  | ok x => exact .inr ⟨x, rfl, h⟩

theorem anyM_eq {f : α → Except ε Bool} {g : α → Bool} {l : List α}
    (h : ∀ a ∈ l, f a = .ok (g a)) : l.anyM f = .ok (l.any g) := by
  induction l with
  | nil => rfl
  | cons a l ih =>
    obtain ⟨ha, hl⟩ := List.forall_mem_cons.1 h
    rw [List.anyM, ha, List.any_cons]
    cases g a with
    | true => rfl
    | false => exact ih hl

theorem mapM_eq {f : α → Except ε β} {g : α → β} {l : List α} (h : ∀ a ∈ l, f a = .ok (g a)) :
    l.mapM f = .ok (l.map g) := by
  induction l with
  | nil => rfl
  | cons a l ih =>
    obtain ⟨ha, hl⟩ := List.forall_mem_cons.1 h
    rw [List.mapM_cons, ha, ih hl]
    rfl

theorem forall₂_of_mapM {f : α → Except ε β} {l : List α} {l' : List β} (h : l.mapM f = .ok l') :
    List.Forall₂ (fun a b => f a = .ok b) l l' := by
  induction l generalizing l' with
  | nil =>
    cases h
    exact .nil
  | cons a l ih =>
    rw [List.mapM_cons] at h
    obtain ⟨b, hb, h⟩ := bind_eq_ok h
    obtain ⟨bs, hbs, h⟩ := bind_eq_ok h
    cases h
    exact .cons hb (ih hbs)

theorem exists_of_mapM_eq_error {f : α → Except ε β} {l : List α} {e : ε}
    (h : l.mapM f = .error e) : ∃ a ∈ l, f a = .error e := by
  induction l with
  | nil => cases h
  | cons a l ih =>
    rw [List.mapM_cons] at h
    rcases bind_eq_error h with ha | ⟨b, -, h⟩
    · exact ⟨a, List.mem_cons_self, ha⟩
    · rcases bind_eq_error h with hl | ⟨bs, -, h⟩
      · obtain ⟨a', ha', he⟩ := ih hl
        exact ⟨a', List.mem_cons_of_mem a ha', he⟩
      · cases h

theorem foldlM_eq {f : β → α → Except ε β} {g : β → α → β} {l : List α} {init : β}
    (h : ∀ b, ∀ a ∈ l, f b a = .ok (g b a)) : l.foldlM f init = .ok (l.foldl g init) := by
  induction l generalizing init with
  | nil => rfl
  | cons a l ih =>
    rw [List.foldlM_cons, h init a List.mem_cons_self, List.foldl_cons]
    exact ih fun b a' ha' => h b a' (List.mem_cons_of_mem _ ha')

/-! ## The first error -/

theorem forM_singleton {f : α → Except ε Unit} (a : α) : forM [a] f = f a := by
  rw [List.forM_cons, List.forM_nil, bind_pure_unit]

theorem forM_eq_ok {f : α → Except ε Unit} {l : List α} :
    forM l f = .ok () ↔ ∀ a ∈ l, f a = .ok () := by
  induction l with
  | nil => exact iff_of_true rfl (by simp)
  | cons a l ih =>
    rw [List.forM_cons, List.forall_mem_cons, ← ih]
    cases f a with
    | error e => exact iff_of_false (by nofun) (by nofun)
    | ok u => exact (and_iff_right rfl).symm

/-- A loop of checks fails with the error of the first check that does. -/
theorem forM_eq_error {f : α → Except ε Unit} {l : List α} {e : ε} :
    forM l f = .error e ↔ ∃ before a after, l = before ++ a :: after ∧
      (∀ b ∈ before, f b = .ok ()) ∧ f a = .error e := by
  constructor
  · intro h
    induction l with
    | nil => cases h
    | cons a l ih =>
      rw [List.forM_cons] at h
      cases ha : f a with
      | error e' =>
        rw [ha] at h
        cases h
        exact ⟨[], a, l, rfl, by simp, ha⟩
      | ok u =>
        rw [ha] at h
        obtain ⟨before, a', after, rfl, hbefore, ha'⟩ := ih h
        exact ⟨a :: before, a', after, rfl, List.forall_mem_cons.2 ⟨ha, hbefore⟩, ha'⟩
  · rintro ⟨before, a, after, rfl, hbefore, ha⟩
    rw [List.forM_append, forM_eq_ok.2 hbefore, ok_bind, List.forM_cons, ha]
    rfl

/-! ## Changes of the state -/

/-- A change of the state that commutes with each step of a loop commutes with the loop. -/
theorem foldlM_hom {γ : Type} (φ : β → γ) {f : β → α → Except ε β} {g : γ → α → Except ε γ}
    {l : List α} {init : β} (h : ∀ b a, g (φ b) a = φ <$> f b a) :
    l.foldlM g (φ init) = φ <$> l.foldlM f init := by
  induction l generalizing init with
  | nil => rfl
  | cons a l ih => simp only [List.foldlM_cons, h, bind_map_left, map_bind, ih]

end Munch.Checked
