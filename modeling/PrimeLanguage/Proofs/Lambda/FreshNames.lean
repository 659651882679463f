import Mathlib.Data.Finset.Card
import Mathlib.Data.List.DropRight
import PrimeLanguage.Proofs.Lambda.Substitution

/-!
# Fresh names over the life of a supply

A supply tries one number after the other until a name is not to be avoided.  It never comes back to
a number, so that a name it has returned is not returned again, whatever the hints are.

* `NameSupply.Draw` — a call with what came of it; `Draw.attempts` are the names that were tried;
* `NameSupply.drawAll` — calls one after the other;
* `NameSupply.serial` — the number at the end of a name.

`serial_numbered` reads the number of a fresh name back, since a stem does not end in a digit.
`isFresh_draw` is about one call, `drawAll_ordered` about any number of them.

Principal result: `names_never_repeat`.
-/

namespace PrimeLanguage

namespace NameSupply

/-! ## Calls -/

/-- A call: the hint, the names to be avoided, the name returned, and the supply around the call. -/
structure Draw where
  hint : String
  avoid : List String
  before : NameSupply
  name : String
  after : NameSupply

/-- One call. -/
def draw (s : NameSupply) (hint : String) (avoid : List String) : Draw :=
  let (name, after) := s.fresh hint avoid
  ⟨hint, avoid, s, name, after⟩

/-- Calls one after the other, each with its hint and its names to be avoided. -/
def drawAll (s : NameSupply) : List (String × List String) → List Draw
  | [] => []
  | (hint, avoid) :: calls => s.draw hint avoid :: (s.draw hint avoid).after.drawAll calls

/-- The names that a call tries: one for each number that the counter passes. -/
def Draw.attempts (d : Draw) : List String :=
  (List.range' d.before.next (d.after.next - d.before.next)).map (numbered (stem d.hint))

/-! ## The number of a name -/

/-- The number that the digits at the end of a name make. -/
def serial (name : String) : Nat :=
  Nat.ofDigitChars 10 (name.toList.rtakeWhile Char.isDigit) 0

/-- A stem does not end in a digit. -/
theorem rtakeWhile_stem (hint : String) : (stem hint).rtakeWhile Char.isDigit = [] := by
  unfold stem
  split
  · rfl
  · rename_i base hbase
    exact List.rtakeWhile_eq_nil_iff.2 (List.rdropWhile_last_not Char.isDigit hint.toList)

/-- The number of a fresh name can be read back. -/
theorem serial_numbered (hint : String) (n : Nat) : serial (numbered (stem hint) n) = n := by
  have hdigits : ∀ c ∈ (Nat.toDigits 10 n).reverse, c.isDigit = true := fun c hc =>
    Nat.isDigit_of_mem_toDigits (by decide) (by decide) (List.mem_reverse.1 hc)
  have hstem := List.reverse_eq_nil_iff.1 (rtakeWhile_stem hint)
  rw [serial, numbered, String.toList_ofList, List.rtakeWhile, List.reverse_append,
    List.takeWhile_append_of_pos hdigits, hstem, List.append_nil, List.reverse_reverse,
    Nat.ofDigitChars_ten_toDigits]

/-! ## One call -/

/-- What a call does: it tries names until one is not to be avoided, and returns that one. -/
structure Draw.IsFresh (d : Draw) : Prop where
  notMem : d.name ∉ d.avoid
  grows : d.before.next < d.after.next
  attempts : ∃ refused, d.attempts = refused ++ [d.name] ∧ ∀ name ∈ refused, name ∈ d.avoid
  length_attempts : d.attempts.length ≤ d.avoid.toFinset.card + 1
  serial : serial d.name + 1 = d.after.next

/-- Different names that are all in a list are not more than it has members. -/
theorem length_numbered_le {base : List Char} {avoid : List String} {n k : Nat}
    (h : ∀ name ∈ (List.range' n k).map (numbered base), name ∈ avoid) :
    k ≤ avoid.toFinset.card := by
  have hnodup : ((List.range' n k).map (numbered base)).Nodup :=
    List.Nodup.map (numbered_injective base) List.nodup_range'
  have hsub : ((List.range' n k).map (numbered base)).toFinset ⊆ avoid.toFinset := by
    intro name hname
    exact List.mem_toFinset.2 (h name (List.mem_toFinset.1 hname))
  have hcard := Finset.card_le_card hsub
  rwa [List.toFinset_card_of_nodup hnodup, List.length_map, List.length_range'] at hcard

/-- **One call** returns the first name that is not to be avoided. -/
theorem isFresh_draw (s : NameSupply) (hint : String) (avoid : List String) :
    (s.draw hint avoid).IsFresh := by
  obtain ⟨m, hm, hpick, havoid, hpassed⟩ := pick_eq (stem hint) s.next avoid
  have hdraw : s.draw hint avoid = ⟨hint, avoid, s, numbered (stem hint) m, ⟨m + 1⟩⟩ := by
    simp only [draw, fresh, hpick]
  have hattempts :
      (Draw.mk hint avoid s (numbered (stem hint) m) ⟨m + 1⟩).attempts =
        (List.range' s.next (m - s.next)).map (numbered (stem hint)) ++
          [numbered (stem hint) m] := by
    have hcount : m + 1 - s.next = m - s.next + 1 := by omega
    have hlast : s.next + 1 * (m - s.next) = m := by omega
    rw [Draw.attempts, hcount, List.range'_concat, hlast, List.map_append, List.map_singleton]
  have hrefused : ∀ name ∈ (List.range' s.next (m - s.next)).map (numbered (stem hint)),
      name ∈ avoid := by
    intro name hname
    obtain ⟨i, hi, rfl⟩ := List.mem_map.1 hname
    obtain ⟨hle, hlt⟩ := List.mem_range'_1.1 hi
    exact hpassed i hle (by omega)
  rw [hdraw]
  refine ⟨havoid, Nat.lt_succ_of_le hm, ⟨_, hattempts, hrefused⟩, ?_, ?_⟩
  · have hfew := length_numbered_le hrefused
    rw [hattempts, List.length_append, List.length_map, List.length_range', List.length_singleton]
    exact Nat.succ_le_succ hfew
  · exact congrArg (· + 1) (serial_numbered hint m)

/-! ## Any number of calls -/

/-- **Calls one after the other**, by induction: each does what a call does, and the counter goes on
where the calls before have left it. -/
theorem drawAll_ordered (s : NameSupply) (calls : List (String × List String)) :
    (∀ d ∈ s.drawAll calls, d.IsFresh ∧ s.next ≤ d.before.next) ∧
    (s.drawAll calls).Pairwise (fun d d' => d.after.next ≤ d'.before.next) := by
  induction calls generalizing s with
  | nil => exact ⟨nofun, .nil⟩
  | cons call calls ih =>
    obtain ⟨hint, avoid⟩ := call
    obtain ⟨hfresh, hordered⟩ := ih (s.draw hint avoid).after
    have hdraw := isFresh_draw s hint avoid
    refine ⟨List.forall_mem_cons.2 ⟨⟨hdraw, Nat.le_refl _⟩, fun d hd => ?_⟩,
      List.pairwise_cons.2 ⟨fun d hd => (hfresh d hd).2, hordered⟩⟩
    obtain ⟨hd, hle⟩ := hfresh d hd
    exact ⟨hd, Nat.le_trans (Nat.le_of_lt hdraw.grows) hle⟩

/-- Calls between which the counter grows return different names: the number is in the name. -/
theorem Draw.IsFresh.name_ne {d d' : Draw} (hd : d.IsFresh) (hd' : d'.IsFresh)
    (h : d.after.next ≤ d'.before.next) : d.name ≠ d'.name := by
  intro hname
  have hserial := hd.serial
  have hserial' := hd'.serial
  have hgrows := hd'.grows
  rw [hname] at hserial
  omega

/-- The calls are made with the hints and the names to be avoided that are given. -/
theorem map_drawAll (s : NameSupply) (calls : List (String × List String)) :
    (s.drawAll calls).map (fun d => (d.hint, d.avoid)) = calls := by
  induction calls generalizing s with
  | nil => rfl
  | cons call calls ih => exact congrArg₂ List.cons rfl (ih _)

/-- **A name is returned once in the life of a supply.**  Whatever calls are made one after the
other, with any hints and any names to be avoided, each call tries at most one name more than there
are names to be avoided and returns the first one that is none of them.  The counter grows with every
call, and no two calls return the same name, even if their hints differ. -/
theorem names_never_repeat (s : NameSupply) (calls : List (String × List String)) :
    (s.drawAll calls).map (fun d => (d.hint, d.avoid)) = calls ∧
    (∀ d ∈ s.drawAll calls, d.IsFresh) ∧
    (s.drawAll calls).Pairwise (fun d d' => d.after.next ≤ d'.before.next) ∧
    ((s.drawAll calls).map Draw.name).Nodup := by
  obtain ⟨hfresh, hordered⟩ := drawAll_ordered s calls
  refine ⟨map_drawAll s calls, fun d hd => (hfresh d hd).1, hordered, ?_⟩
  refine List.pairwise_map.2 (hordered.imp_of_mem fun hd hd' h => ?_)
  exact (hfresh _ hd).1.name_ne (hfresh _ hd').1 h

/-- A name to be avoided, a hint with a number at its end, and an empty one. -/
theorem names_never_repeat_hints :
    let draws := start.drawAll [("x", ["x0"]), ("x17", ["x0"]), ("", ["v2", "x1"])]
    draws.map Draw.name = ["x1", "x2", "v3"] ∧ (∀ d ∈ draws, d.IsFresh) ∧
      (draws.map Draw.name).Nodup := by
  intro draws
  obtain ⟨_, hfresh, _, hnodup⟩ :=
    names_never_repeat start [("x", ["x0"]), ("x17", ["x0"]), ("", ["v2", "x1"])]
  exact ⟨by decide +kernel, hfresh, hnodup⟩

end NameSupply

end PrimeLanguage
