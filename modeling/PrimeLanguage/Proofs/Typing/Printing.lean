import PrimeLanguage.Proofs.Text
import PrimeLanguage.Typing.Basic

/-!
# The text of a type

The text of a type determines it and is one line (`Ty.text_injective`, `Ty.newline_notMem`).
-/

namespace PrimeLanguage

namespace SentenceTy

variable {s s' : SentenceTy} {rest rest' : List Char}

def symbol : Connective → Char
  | .seq => '×'
  | .imp => '→'

theorem toList_text_join (c : Connective) (l r : SentenceTy) :
    (join c l r).text.toList =
      '(' :: (l.text.toList ++ ' ' :: symbol c :: ' ' :: (r.text.toList ++ [')'])) := by
  cases c <;> simp [text, symbol, toString]

/-- The text tells the type of a sentence and where it ends. -/
theorem text_append_inj (h : s.text.toList ++ rest = s'.text.toList ++ rest') :
    s = s' ∧ rest = rest' := by
  induction s generalizing s' rest rest' with
  | atomic =>
    cases s' with
    | atomic => exact ⟨rfl, List.append_cancel_left h⟩
    | join c l r => simp [toList_text_join, text] at h
  | join c l r ihl ihr =>
    cases s' with
    | atomic => simp [toList_text_join, text] at h
    | join c' l' r' =>
      simp only [toList_text_join, List.cons_append, List.append_assoc, List.nil_append] at h
      obtain ⟨rfl, hright⟩ := ihl (List.cons.inj h).2
      obtain ⟨hsymbol, hright⟩ := List.cons.inj (List.cons.inj hright).2
      obtain ⟨rfl, hrests⟩ := ihr (List.cons.inj hright).2
      have hc : c = c' := by
        revert hsymbol
        cases c <;> cases c' <;> decide
      exact ⟨by rw [hc], (List.cons.inj hrests).2⟩

theorem newline_notMem (s : SentenceTy) : '\n' ∉ s.text.toList := by
  induction s with
  | atomic => simp [text]
  | join c l r ihl ihr => cases c <;> simp [toList_text_join, symbol, ihl, ihr]

end SentenceTy

namespace Ty

theorem toList_text_index (p : Prime) :
    (noun (some p)).text.toList = 'N' :: '[' :: (Nat.toDigits 10 p.val ++ [']']) := by
  simp [text, toString, Prime.digits]

theorem toList_text_adj (p : Prime) :
    (adj p).text.toList = 'A' :: '[' :: (Nat.toDigits 10 p.val ++ [']']) := by
  simp [text, toString, Prime.digits]

/-- The kind of the types whose text begins with that character. -/
def kindOf (c : Char) : Kind := if c = 'N' then .noun else if c = 'A' then .adj else .sentence

/-- The first character tells the kind. -/
theorem kindOf_text (t : Ty) : t.text.toList.head?.map kindOf = some t.kind := by
  cases t with
  | noun index =>
    cases index with
    | none => simp [text, kindOf, kind]
    | some p => rw [toList_text_index]; rfl
  | adj p => rw [toList_text_adj]; rfl
  | sentence s =>
    cases s with
    | atomic => simp [text, SentenceTy.text, kindOf, kind]
    | join c l r => rw [text, SentenceTy.toList_text_join]; rfl

theorem eq_of_brackets {p q : Prime}
    (h : '[' :: (Nat.toDigits 10 p.val ++ [']']) = '[' :: (Nat.toDigits 10 q.val ++ [']'])) :
    p = q :=
  Prime.ext (toDigits_injective (List.append_cancel_right (List.cons.inj h).2))

/-- **Types are told apart by their texts.** -/
theorem text_injective {t t' : Ty} (h : t.text = t'.text) : t = t' := by
  have hlist := congrArg String.toList h
  have hkind : t.kind = t'.kind := by
    rw [← Option.some_inj, ← kindOf_text, ← kindOf_text, h]
  cases t with
  | noun i =>
    cases t' with
    | noun i' =>
      rcases i with _ | p <;> rcases i' with _ | q
      · rfl
      · rw [toList_text_index] at hlist
        cases hlist
      · rw [toList_text_index] at hlist
        cases hlist
      · rw [toList_text_index, toList_text_index] at hlist
        rw [eq_of_brackets (List.cons.inj hlist).2]
    | adj | sentence => cases hkind
  | adj p =>
    cases t' with
    | adj q =>
      rw [toList_text_adj, toList_text_adj] at hlist
      rw [eq_of_brackets (List.cons.inj hlist).2]
    | noun | sentence => cases hkind
  | sentence s =>
    cases t' with
    | sentence s' =>
      have hsame : s.text.toList ++ [] = s'.text.toList ++ [] := congrArg (· ++ []) hlist
      exact congrArg sentence (SentenceTy.text_append_inj hsame).1
    | noun | adj => cases hkind

theorem newline_notMem (t : Ty) : '\n' ∉ t.text.toList := by
  have hdigits (p : Prime) : '\n' ∉ p.digits := fun hmem => by
    cases isDigit_toDigits p.val _ hmem
  cases t with
  | noun index => cases index <;> simp [text, toString, hdigits]
  | adj p => simp [text, toString, hdigits]
  | sentence s => exact s.newline_notMem

end Ty

end PrimeLanguage
