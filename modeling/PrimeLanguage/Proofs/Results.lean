import Mathlib.Data.List.Forall2

/-!
# Results that may be errors

How a sequence of computations that may fail succeeds (`bind_eq_ok_iff`, `map_eq_ok_iff`) and how it
fails (`bind_eq_error_iff`, `map_eq_error_iff`); `toOption_eq_some_iff` forgets the error.  The same
for one computation on every element of a list: `mapM_eq_ok_iff`, `mapM_eq_error_iff`.
-/

namespace PrimeLanguage

variable {ε α β : Type}

theorem bind_eq_ok_iff {x : Except ε α} {f : α → Except ε β} {b : β} :
    (x >>= f) = .ok b ↔ ∃ a, x = .ok a ∧ f a = .ok b := by
  cases x <;> simp [bind, Except.bind]

theorem bind_eq_error_iff {x : Except ε α} {f : α → Except ε β} {e : ε} :
    (x >>= f) = .error e ↔ x = .error e ∨ ∃ a, x = .ok a ∧ f a = .error e := by
  cases x <;> simp [bind, Except.bind]

theorem map_eq_ok_iff {x : Except ε α} {f : α → β} {b : β} :
    x.map f = .ok b ↔ ∃ a, x = .ok a ∧ f a = b := by
  cases x <;> simp [Except.map]

theorem map_eq_error_iff {x : Except ε α} {f : α → β} {e : ε} :
    x.map f = .error e ↔ x = .error e := by
  cases x <;> simp [Except.map]

theorem exists_map_eq_ok_iff {x : Except ε α} {f : α → β} :
    (∃ b, x.map f = .ok b) ↔ ∃ a, x = .ok a := by
  cases x <;> simp [Except.map]

theorem toOption_eq_some_iff {x : Except ε α} {a : α} : x.toOption = some a ↔ x = .ok a := by
  cases x <;> simp [Except.toOption]

/-! ## One computation on every element of a list -/

section MapM

variable {f : α → Except ε β} {xs : List α}

theorem mapM_eq_ok_iff {ys : List β} :
    xs.mapM f = .ok ys ↔ List.Forall₂ (fun x y => f x = .ok y) xs ys := by
  induction xs generalizing ys with
  | nil =>
    rw [List.forall₂_nil_left_iff, List.mapM_nil]
    exact ⟨fun h => (Except.ok.inj h).symm, fun h => congrArg Except.ok h.symm⟩
  | cons x xs ih =>
    simp only [List.mapM_cons, bind_eq_ok_iff, ih, List.forall₂_cons_left_iff]
    constructor
    · rintro ⟨y, hy, ys', hys, h⟩
      exact ⟨y, ys', hy, hys, (Except.ok.inj h).symm⟩
    · rintro ⟨y, ys', hy, hys, rfl⟩
      exact ⟨y, hy, ys', hys, rfl⟩

theorem exists_mapM_eq_ok (h : ∀ x ∈ xs, ∃ y, f x = .ok y) : ∃ ys, xs.mapM f = .ok ys := by
  induction xs with
  | nil => exact ⟨[], rfl⟩
  | cons x xs ih =>
    obtain ⟨⟨y, hy⟩, htail⟩ := List.forall_mem_cons.1 h
    obtain ⟨ys, hys⟩ := ih htail
    exact ⟨y :: ys, mapM_eq_ok_iff.2 (.cons hy (mapM_eq_ok_iff.1 hys))⟩

/-- Where the computation commutes with a map, so does the list of its results. -/
theorem mapM_map_of_comm {γ δ : Type} {u : α → γ} {v : β → δ} {g : γ → Except ε δ}
    (h : ∀ x, g (u x) = (f x).map v) (xs : List α) :
    (xs.map u).mapM g = (xs.mapM f).map (·.map v) := by
  induction xs with
  | nil => rfl
  | cons x xs ih =>
    rw [List.map_cons, List.mapM_cons, List.mapM_cons, ih, h]
    cases f x with
    | error err => rfl
    | ok y => cases xs.mapM f <;> rfl

/-- The error is that of the first element whose computation fails. -/
theorem mapM_eq_error_iff {e : ε} :
    xs.mapM f = .error e ↔ ∃ before x after, xs = before ++ x :: after ∧
      (∀ y ∈ before, ∃ b, f y = .ok b) ∧ f x = .error e := by
  induction xs with
  | nil => simp [pure, Except.pure]
  | cons x xs ih =>
    rw [List.mapM_cons, bind_eq_error_iff]
    constructor
    · rintro (hx | ⟨y, hy, h⟩)
      · exact ⟨[], x, xs, rfl, by simp, hx⟩
      · rcases bind_eq_error_iff.1 h with htail | ⟨_, _, h⟩
        · obtain ⟨before, z, after, rfl, hbefore, hz⟩ := ih.1 htail
          exact ⟨x :: before, z, after, rfl, List.forall_mem_cons.2 ⟨⟨y, hy⟩, hbefore⟩, hz⟩
        · cases h
    · rintro ⟨before, z, after, hxs, hbefore, hz⟩
      rcases List.cons_eq_append_iff.1 hxs with ⟨rfl, hcons⟩ | ⟨before', rfl, rfl⟩
      · cases hcons
        exact Or.inl hz
      · obtain ⟨⟨y, hy⟩, hbefore'⟩ := List.forall_mem_cons.1 hbefore
        have htail := ih.2 ⟨before', z, after, rfl, hbefore', hz⟩
        exact Or.inr ⟨y, hy, bind_eq_error_iff.2 (Or.inl htail)⟩

end MapM

/-! ## One computation on an element that may be missing -/

section OptionMapM

variable {f : α → Except ε β}

theorem option_mapM_map_of_comm {γ δ : Type} {u : α → γ} {v : β → δ} {g : γ → Except ε δ}
    (h : ∀ x, g (u x) = (f x).map v) (x? : Option α) :
    (x?.map u).mapM g = (x?.mapM f).map (·.map v) := by
  cases x? with
  | none => rfl
  | some x =>
    change some <$> g (u x) = (some <$> f x).map (·.map v)
    rw [h]
    cases f x <;> rfl

/-- The second element counts only where there is no first one. -/
theorem option_mapM_or (x? y? : Option α) :
    (x?.or y?).mapM f = x?.mapM f >>= fun
      | some b => .ok (some b)
      | none => y?.mapM f := by
  cases x? with
  | none => rfl
  | some x =>
    change some <$> f x = some <$> f x >>= _
    cases f x <;> rfl

/-- What succeeds on every element of a list succeeds on its first one. -/
theorem option_mapM_head? {xs : List α} {ys : List β}
    (h : List.Forall₂ (fun x y => f x = .ok y) xs ys) : xs.head?.mapM f = .ok ys.head? := by
  cases h with
  | nil => rfl
  | @cons x y xs ys hy _ =>
    change some <$> f x = _
    rw [hy]
    rfl

end OptionMapM

end PrimeLanguage
