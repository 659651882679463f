import Mathlib.Data.List.TakeWhile

/-!
# Where a text stops

A reader that takes characters of one kind stops at the first other one.  `StopsAt p cs` says that
`cs` does not go on with a character of the kind `p`; what stands in front of it is then told apart
from it (`append_inj_of_stopsAt`).  Digits are the kind of which numbers are written.
-/

namespace PrimeLanguage

variable {p : Char → Bool} {a b cs cs' : List Char}

/-- The text does not go on with a character of that kind. -/
def StopsAt (p : Char → Bool) (cs : List Char) : Prop := ∀ c ∈ cs.head?, p c = false

theorem stopsAt_nil : StopsAt p [] := nofun

theorem stopsAt_cons {c : Char} (h : p c = false) (cs : List Char) : StopsAt p (c :: cs) := by
  simpa [StopsAt] using h

theorem StopsAt.takeWhile_append (h : StopsAt p cs) (ha : ∀ c ∈ a, p c = true) :
    (a ++ cs).takeWhile p = a := by
  have hstop : cs.takeWhile p = [] := by
    cases cs with
    | nil => rfl
    | cons c cs => exact List.takeWhile_cons_of_neg (by simp [h c rfl])
  rw [List.takeWhile_append_of_pos ha, hstop, List.append_nil]

theorem StopsAt.dropWhile_append (h : StopsAt p cs) (ha : ∀ c ∈ a, p c = true) :
    (a ++ cs).dropWhile p = cs := by
  rw [List.dropWhile_append_of_pos ha]
  cases cs with
  | nil => rfl
  | cons c cs => exact List.dropWhile_cons_of_neg (by simp [h c rfl])

/-- Two texts of one kind, with other characters behind them, end at the same place. -/
theorem append_inj_of_stopsAt (ha : ∀ c ∈ a, p c = true) (hb : ∀ c ∈ b, p c = true)
    (hcs : StopsAt p cs) (hcs' : StopsAt p cs') (h : a ++ cs = b ++ cs') : a = b ∧ cs = cs' := by
  have hab := congrArg (List.takeWhile p) h
  rw [hcs.takeWhile_append ha, hcs'.takeWhile_append hb] at hab
  subst hab
  exact ⟨rfl, List.append_cancel_left h⟩

theorem toList_pushn (s : String) (c : Char) (n : Nat) :
    (s.pushn c n).toList = s.toList ++ List.replicate n c := by
  induction n with
  | zero => simp [String.pushn, Nat.repeat]
  | succ n ih =>
    change ((s.pushn c n).push c).toList = _
    rw [String.toList_push, ih, List.append_assoc, List.replicate_succ']

/-! ## Digits -/

theorem isDigit_toDigits (n : Nat) : ∀ c ∈ Nat.toDigits 10 n, c.isDigit = true := fun _ hc =>
  Nat.isDigit_of_mem_toDigits (by decide) (by decide) hc

theorem exists_toDigits_eq_cons (n : Nat) :
    ∃ c cs, Nat.toDigits 10 n = c :: cs ∧ c.isDigit = true := by
  obtain ⟨c, cs, h⟩ := List.exists_cons_of_ne_nil (Nat.toDigits_ne_nil (n := n) (b := 10))
  exact ⟨c, cs, h, isDigit_toDigits n c (h ▸ List.mem_cons_self)⟩

/-- Numbers are told apart by their digits. -/
theorem toDigits_injective {n m : Nat} (h : Nat.toDigits 10 n = Nat.toDigits 10 m) : n = m := by
  have hvalue := congrArg (Nat.ofDigitChars 10 · 0) h
  rwa [Nat.ofDigitChars_ten_toDigits, Nat.ofDigitChars_ten_toDigits] at hvalue

end PrimeLanguage
