import Mathlib.Data.List.Forall2

/-!
# Computations that may fail

What is left of a computation that succeeded, and when a computation over a list
succeeds.
-/

namespace Cinder

variable {ε α β σ : Type}

theorem bind_eq_ok {x : Except ε α} {g : α → Except ε β} {b : β} :
    x >>= g = .ok b ↔ ∃ a, x = .ok a ∧ g a = .ok b := by
  cases x <;> simp [bind, Except.bind]

theorem bind_ok (a : α) (g : α → Except ε β) : (Except.ok a >>= g) = g a :=
  rfl

theorem toOption_eq_some {x : Except ε α} {a : α} : x.toOption = some a ↔ x = .ok a := by
  cases x <;> simp [Except.toOption]

/-- What a computation gives if it succeeds, and what it gives if it fails. -/
def Delivers (P : α → Prop) (E : ε → Prop) : Except ε α → Prop
  | .ok a => P a
  | .error e => E e

namespace Delivers

variable {P : α → Prop} {Q : β → Prop} {E : ε → Prop}

theorem bind {x : Except ε α} {g : α → Except ε β} (hx : Delivers P E x)
    (hg : ∀ a, P a → Delivers Q E (g a)) : Delivers Q E (x >>= g) := by
  cases x with
  | ok a => exact hg a hx
  | error e => exact hx

/-- A failure of the first step, told as a failure of the whole. -/
theorem bind_imp {E' : ε → Prop} {x : Except ε α} {g : α → Except ε β} (hx : Delivers P E' x)
    (he : ∀ e, E' e → E e) (hg : ∀ a, P a → Delivers Q E (g a)) : Delivers Q E (x >>= g) := by
  cases x with
  | ok a => exact hg a hx
  | error e => exact he e hx

theorem mono {x : Except ε α} {R : α → Prop} (hx : Delivers P E x) (h : ∀ a, P a → R a) :
    Delivers R E x := by
  cases x with
  | ok a => exact h a hx
  | error e => exact hx

theorem of_ok {x : Except ε α} {R : α → Prop} (hx : Delivers P E x) (h : ∀ a, x = .ok a → R a) :
    Delivers R E x := by
  cases x with
  | ok a => exact h a rfl
  | error e => exact hx

theorem of_eq_ok {x : Except ε α} {a : α} (hx : Delivers P E x) (h : x = .ok a) : P a := by
  rw [h] at hx
  exact hx

theorem of_error {x : Except ε α} {e : ε} (hx : Delivers P E x) (h : x = .error e) : E e := by
  rw [h] at hx
  exact hx

theorem foldlM {f : β → α → Except ε β} (h : ∀ b a, Q b → Delivers Q E (f b a)) (l : List α)
    {b : β} (hb : Q b) : Delivers Q E (l.foldlM f b) := by
  induction l generalizing b with
  | nil => exact hb
  | cons a l ih =>
    rw [List.foldlM_cons]
    apply Delivers.bind (h b a hb)
    intro b' hb'
    exact ih hb'

end Delivers

/-- A computation that succeeds on every element succeeds on the list. -/
theorem exists_mapM {g : α → Except ε β} {P : α → β → Prop} {l : List α}
    (h : ∀ a ∈ l, ∃ b, g a = .ok b ∧ P a b) : ∃ bs, l.mapM g = .ok bs ∧ List.Forall₂ P l bs := by
  induction l with
  | nil => exact ⟨[], rfl, .nil⟩
  | cons a l ih =>
    obtain ⟨b, hb, hP⟩ := h a (by simp)
    obtain ⟨bs, hbs, hPs⟩ := ih fun a ha => h a (by simp [ha])
    refine ⟨b :: bs, ?_, .cons hP hPs⟩
    rw [List.mapM_cons, hb, bind_ok, hbs, bind_ok]
    rfl

theorem forall₂_of_mapM {g : α → Except ε β} {l : List α} {bs : List β} (h : l.mapM g = .ok bs) :
    List.Forall₂ (fun a b => g a = .ok b) l bs := by
  induction l generalizing bs with
  | nil =>
    cases h
    exact .nil
  | cons a l ih =>
    rw [List.mapM_cons] at h
    obtain ⟨b, hb, h⟩ := bind_eq_ok.1 h
    obtain ⟨rest, hrest, h⟩ := bind_eq_ok.1 h
    cases h
    exact .cons hb (ih hrest)

theorem forall₂_exists_left {R : α → β → Prop} {l : List α} {l' : List β}
    (h : List.Forall₂ R l l') {b : β} (hb : b ∈ l') : ∃ a ∈ l, R a b := by
  induction h with
  | nil => cases hb
  | cons hR _ ih =>
    rcases List.mem_cons.1 hb with rfl | hb
    · exact ⟨_, by simp, hR⟩
    · obtain ⟨a, ha, hab⟩ := ih hb
      exact ⟨a, by simp [ha], hab⟩

theorem forall₂_imp_of_mem {R S : α → β → Prop} {l : List α} {l' : List β}
    (hRS : ∀ {a b}, a ∈ l → b ∈ l' → R a b → S a b) (h : List.Forall₂ R l l') :
    List.Forall₂ S l l' := by
  induction h with
  | nil => exact .nil
  | cons hR _ ih =>
    exact .cons (hRS (by simp) (by simp) hR)
      (ih fun ha hb => hRS (by simp [ha]) (by simp [hb]))

theorem forall₂_trans {γ : Type} {R : α → β → Prop} {S : β → γ → Prop} {T : α → γ → Prop}
    (hRS : ∀ {a b c}, R a b → S b c → T a c) {l : List α} {l' : List β} {l'' : List γ}
    (h : List.Forall₂ R l l') (h' : List.Forall₂ S l' l'') : List.Forall₂ T l l'' := by
  induction h generalizing l'' with
  | nil =>
    cases h'
    exact .nil
  | cons hR _ ih =>
    cases h' with
    | cons hS h' => exact .cons (hRS hR hS) (ih h')

theorem map_eq_map_of_forall₂ {γ : Type} {g : α → γ} {g' : β → γ} {l : List α} {l' : List β}
    (h : List.Forall₂ (fun a b => g a = g' b) l l') : l.map g = l'.map g' := by
  induction h with
  | nil => rfl
  | cons hab _ ih => rw [List.map_cons, List.map_cons, hab, ih]

/-- A computation that is known on every element gives the list of its results. -/
theorem mapM_eq_ok_map {g : α → Except ε β} {k : α → β} {l : List α}
    (h : ∀ a ∈ l, g a = .ok (k a)) : l.mapM g = .ok (l.map k) := by
  obtain ⟨bs, hbs, hforall⟩ := exists_mapM (P := fun a b => k a = b) fun a ha => ⟨k a, h a ha, rfl⟩
  have hmap := map_eq_map_of_forall₂ hforall
  rw [hbs, hmap, List.map_id']

end Cinder
