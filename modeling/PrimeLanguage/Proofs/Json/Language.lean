import PrimeLanguage.Json.Language
import PrimeLanguage.Proofs.Json.Reading

/-!
# What documents stand for

A document is faithful if what it stands for can be told from it, also when its fields are in
another order (`Json.Faithful`).  So are the documents of terms, expressions, traces and outcomes.
-/

namespace PrimeLanguage

namespace Json

/-! ## Faithful documents -/

/-- Different things have different documents, up to the order of fields. -/
def Faithful {α : Type} (write : α → Json) : Prop :=
  ∀ a b, (write a).sorted = (write b).sorted → a = b

/-- Objects that are the same up to the order of fields have the same values under their keys. -/
theorem lookup_of_sorted_eq {fs gs : List (String × Json)}
    (h : (object fs).sorted = (object gs).sorted) (hfs : (fs.map Prod.fst).Nodup)
    (hgs : (gs.map Prod.fst).Nodup) (key : String) :
    (fs.lookup key).map sorted = (gs.lookup key).map sorted := by
  rw [sorted_object, sorted_object] at h
  rw [← lookup_sortFields hfs, ← lookup_sortFields hgs, ← lookup_map, ← lookup_map, object.inj h]

theorem sorted_variant (name : String) (content : Json) :
    (variant name content).sorted = variant name content.sorted := by
  rw [variant, sorted_object, sortFields, List.mergeSort_singleton]
  rfl

/-- Variants are told apart by their names. -/
theorem sorted_variant_eq_iff {name name' : String} {content content' : Json} :
    (variant name content).sorted = (variant name' content').sorted ↔
      name = name' ∧ content.sorted = content'.sorted := by
  rw [sorted_variant, sorted_variant]
  simp [variant]

theorem sorted_pair_eq_iff {i j i' j' : Json} :
    (array [i, j]).sorted = (array [i', j']).sorted ↔
      i.sorted = i'.sorted ∧ j.sorted = j'.sorted := by
  simp [sorted_array]

/-- Lists whose documents are the same are the same. -/
theorem eq_of_map_sorted_eq {α : Type} {write : α → Json} {as bs : List α}
    (h : ∀ a ∈ as, ∀ b, (write a).sorted = (write b).sorted → a = b)
    (heq : (as.map write).map sorted = (bs.map write).map sorted) : as = bs := by
  induction as generalizing bs with
  | nil => simpa using heq
  | cons a as ih =>
    cases bs with
    | nil => simp at heq
    | cons b bs =>
      obtain ⟨hhead, htail⟩ := List.cons.inj heq
      rw [h a List.mem_cons_self b hhead, ih (fun a ha => h a (List.mem_cons_of_mem _ ha)) htail]

theorem Faithful.array {α : Type} {write : α → Json} (h : Faithful write) :
    Faithful fun as : List α => .array (as.map write) := by
  intro as bs heq
  simp only [sorted_array] at heq
  exact eq_of_map_sorted_eq (fun a _ => h a) (array.inj heq)

end Json

open Json

theorem Prime.faithful_toJson : Faithful Prime.toJson := by
  intro p q h
  exact Prime.ext (Json.number.inj h)

/-! ## Terms -/

theorem Fusion.eq_of_components {f g : Fusion} (h : [f.p, f.q, f.r] = [g.p, g.q, g.r]) : f = g := by
  cases f
  cases g
  cases h
  rfl

theorem Fusion.faithful_toJson : Faithful Fusion.toJson := by
  intro f g h
  have hkeys : ["p", "q", "r"].Nodup := by decide
  have hfield := lookup_of_sorted_eq h hkeys hkeys
  refine eq_of_components ?_
  rw [Prime.faithful_toJson f.p g.p (Option.some.inj (hfield "p")),
    Prime.faithful_toJson f.q g.q (Option.some.inj (hfield "q")),
    Prime.faithful_toJson f.r g.r (Option.some.inj (hfield "r"))]

theorem operatorsToJson_eq (o : Term) (os : List Term) :
    operatorsToJson os [o.toJson] = ((o :: os).map Term.toJson).reverse := by
  have hrest (os : List Term) (rest : List Json) :
      operatorsToJson os rest = (os.map Term.toJson).reverse ++ rest := by
    induction os generalizing rest with
    | nil => rfl
    | cons o os ih => simp [operatorsToJson, ih]
  rw [hrest, List.map_cons, List.reverse_cons]

/-- Operators whose documents are the same are the same, if that holds of each of them. -/
theorem eq_of_operatorsToJson {o o' : Term} {os os' : List Term}
    (h : ∀ t ∈ o :: os, ∀ u : Term, t.toJson.sorted = u.toJson.sorted → t = u)
    (heq : (array (operatorsToJson os [o.toJson])).sorted =
      (array (operatorsToJson os' [o'.toJson])).sorted) : o :: os = o' :: os' := by
  rw [operatorsToJson_eq, operatorsToJson_eq, sorted_array, sorted_array, List.map_reverse,
    List.map_reverse] at heq
  exact eq_of_map_sorted_eq h (List.reverse_inj.1 (array.inj heq))

theorem Connective.eq_termVariant_iff {c : Connective} {name : String} :
    name = c.termVariant ↔ c = .seq ∧ name = "Seq" ∨ c = .imp ∧ name = "Impl" := by
  cases c <;> simp [termVariant]

theorem Connective.termVariant_inj {c c' : Connective} (h : c.termVariant = c'.termVariant) :
    c = c' := by
  cases c <;> cases c' <;> simp [termVariant] at h ⊢

theorem Term.faithful_toJson : Faithful Term.toJson := by
  intro t u h
  induction t using Term.induction generalizing u with
  | noun p =>
    cases u with
    | noun q => exact congrArg noun (Prime.faithful_toJson p q (sorted_variant_eq_iff.1 h).2)
    | _ => simp [toJson, sorted_variant_eq_iff, Connective.eq_termVariant_iff] at h
  | adj p =>
    cases u with
    | adj q => exact congrArg adj (Prime.faithful_toJson p q (sorted_variant_eq_iff.1 h).2)
    | _ => simp [toJson, sorted_variant_eq_iff, Connective.eq_termVariant_iff] at h
  | chain o os e iho ihos ihe =>
    cases u with
    | chain o' os' e' =>
      have hcontent := (sorted_variant_eq_iff.1 h).2
      have hkeys : ["operators", "noun"].Nodup := by decide
      have hfield := lookup_of_sorted_eq hcontent hkeys hkeys
      have he : e.toJson.sorted = e'.toJson.sorted := Option.some.inj (hfield "noun")
      have hos : o :: os = o' :: os' := eq_of_operatorsToJson (List.forall_mem_cons.2 ⟨iho, ihos⟩)
        (Option.some.inj (hfield "operators"))
      obtain ⟨rfl, rfl⟩ := List.cons.inj hos
      rw [ihe e' he]
    | _ => simp [toJson, sorted_variant_eq_iff, Connective.eq_termVariant_iff] at h
  | fusion f =>
    cases u with
    | fusion g => exact congrArg fusion (Fusion.faithful_toJson f g (sorted_variant_eq_iff.1 h).2)
    | _ => simp [toJson, sorted_variant_eq_iff, Connective.eq_termVariant_iff] at h
  | sentence e ih =>
    cases u with
    | sentence e' => exact congrArg sentence (ih e' (sorted_variant_eq_iff.1 h).2)
    | _ => simp [toJson, sorted_variant_eq_iff, Connective.eq_termVariant_iff] at h
  | join c l r ihl ihr =>
    cases u with
    | join c' l' r' =>
      obtain ⟨hname, hcontent⟩ := sorted_variant_eq_iff.1 h
      obtain ⟨hl, hr⟩ := sorted_pair_eq_iff.1 hcontent
      rw [Connective.termVariant_inj hname, ihl l' hl, ihr r' hr]
    | _ =>
      have hname := (sorted_variant_eq_iff.1 h.symm).1
      simp [Connective.eq_termVariant_iff] at hname

/-! ## Expressions -/

theorem Connective.eq_exprVariant_iff {c : Connective} {name : String} :
    name = c.exprVariant ↔ c = .seq ∧ name = "Pair" ∨ c = .imp ∧ name = "Impl" := by
  cases c <;> simp [exprVariant]

theorem Connective.exprVariant_inj {c c' : Connective} (h : c.exprVariant = c'.exprVariant) :
    c = c' := by
  cases c <;> cases c' <;> simp [exprVariant] at h ⊢

theorem Expr.faithful_toJson : Faithful Expr.toJson := by
  intro e e' h
  induction e generalizing e' with
  | var x =>
    cases e' with
    | var y => exact congrArg var (text.inj (sorted_variant_eq_iff.1 h).2)
    | _ => simp [toJson, sorted_variant_eq_iff, Connective.eq_exprVariant_iff] at h
  | const p =>
    cases e' with
    | const q => exact congrArg const (Prime.faithful_toJson p q (sorted_variant_eq_iff.1 h).2)
    | _ => simp [toJson, sorted_variant_eq_iff, Connective.eq_exprVariant_iff] at h
  | lam x b ih =>
    cases e' with
    | lam y b' =>
      obtain ⟨hx, hb⟩ := sorted_pair_eq_iff.1 (sorted_variant_eq_iff.1 h).2
      rw [text.inj hx, ih b' hb]
    | _ => simp [toJson, sorted_variant_eq_iff, Connective.eq_exprVariant_iff] at h
  | app f a ihf iha =>
    cases e' with
    | app f' a' =>
      obtain ⟨hf, ha⟩ := sorted_pair_eq_iff.1 (sorted_variant_eq_iff.1 h).2
      rw [ihf f' hf, iha a' ha]
    | _ => simp [toJson, sorted_variant_eq_iff, Connective.eq_exprVariant_iff] at h
  | join c l r ihl ihr =>
    cases e' with
    | join c' l' r' =>
      obtain ⟨hname, hcontent⟩ := sorted_variant_eq_iff.1 h
      obtain ⟨hl, hr⟩ := sorted_pair_eq_iff.1 hcontent
      rw [Connective.exprVariant_inj hname, ihl l' hl, ihr r' hr]
    | _ =>
      have hname := (sorted_variant_eq_iff.1 h.symm).1
      simp [Connective.eq_exprVariant_iff] at hname
  | prim o l r ihl ihr =>
    cases e' with
    | prim o' l' r' =>
      have hkeys : ["op", "left", "right"].Nodup := by decide
      have hfield := lookup_of_sorted_eq (sorted_variant_eq_iff.1 h).2 hkeys hkeys
      have ho : o = o' := text.inj (Option.some.inj (hfield "op"))
      rw [ho, ihl l' (Option.some.inj (hfield "left")), ihr r' (Option.some.inj (hfield "right"))]
    | _ => simp [toJson, sorted_variant_eq_iff, Connective.eq_exprVariant_iff] at h

theorem Outcome.faithful_toJson : Faithful Outcome.toJson := by
  rintro ⟨e, n, v⟩ ⟨e', n', v'⟩ h
  have hkeys : ["result", "steps", "is_value"].Nodup := by decide
  have hfield := lookup_of_sorted_eq h hkeys hkeys
  have he : e = e' := Expr.faithful_toJson _ _ (Option.some.inj (hfield "result"))
  have hn : n = n' := number.inj (Option.some.inj (hfield "steps"))
  have hv : v = v' := boolean.inj (Option.some.inj (hfield "is_value"))
  rw [he, hn, hv]

/-- An outcome with its fields in order. -/
theorem Outcome.sorted_toJson (o : Outcome) : o.toJson.sorted = .object
    [("is_value", .boolean o.isValue), ("result", o.result.toJson.sorted),
      ("steps", .number o.steps)] := by
  have hperm : [("result", o.result.toJson), ("steps", .number o.steps),
      ("is_value", .boolean o.isValue)].Perm
      [("is_value", .boolean o.isValue), ("result", o.result.toJson), ("steps", .number o.steps)] :=
    @List.perm_append_comm _ [_, _] [_]
  have horder : ["is_value", "result", "steps"].Pairwise (· < ·) := by decide
  rw [toJson, sorted_object, sortFields_eq hperm horder]
  rfl

/-! ## Traces -/

theorem Position.faithful_name : Faithful fun p : Position => .text p.name := by
  intro p p' h
  have hname : p.name = p'.name := text.inj h
  revert hname
  cases p <;> cases p' <;> decide

theorem Combination.faithful_toJson : Faithful Combination.toJson := by
  rintro ⟨p, o⟩ ⟨p', o'⟩ h
  have hkeys : ["result", "orientation"].Nodup := by decide
  have hfield := lookup_of_sorted_eq h hkeys hkeys
  have hp : p = p' := Prime.faithful_toJson _ _ (Option.some.inj (hfield "result"))
  have ho : o.name = o'.name := text.inj (Option.some.inj (hfield "orientation"))
  have ho' : o = o' := by
    revert ho
    cases o <;> cases o' <;> decide
  rw [hp, ho']

theorem StepDetails.faithful_toJson : Faithful StepDetails.toJson := by
  intro d d' h
  cases d with
  | fuse f s =>
    cases d' with
    | fuse f' s' =>
      have hkeys : ["components", "sum"].Nodup := by decide
      have hfield := lookup_of_sorted_eq (sorted_variant_eq_iff.1 h).2 hkeys hkeys
      have hcomponents : [f.p, f.q, f.r] = [f'.p, f'.q, f'.r] :=
        Prime.faithful_toJson.array _ _ (Option.some.inj (hfield "components"))
      rw [Fusion.eq_of_components hcomponents,
        Prime.faithful_toJson s s' (Option.some.inj (hfield "sum"))]
    | apply => simp [toJson, sorted_variant_eq_iff] at h
  | apply p q c =>
    cases d' with
    | fuse => simp [toJson, sorted_variant_eq_iff] at h
    | apply p' q' c' =>
      have hkeys : ["operator", "operand", "combination"].Nodup := by decide
      have hfield := lookup_of_sorted_eq (sorted_variant_eq_iff.1 h).2 hkeys hkeys
      rw [Prime.faithful_toJson p p' (Option.some.inj (hfield "operator")),
        Prime.faithful_toJson q q' (Option.some.inj (hfield "operand")),
        Combination.faithful_toJson c c' (Option.some.inj (hfield "combination"))]

theorem Step.faithful_toJson : Faithful Step.toJson := by
  rintro ⟨before, after, path, details⟩ ⟨before', after', path', details'⟩ h
  have hkeys : ["rule", "before", "after", "path", "details"].Nodup := by decide
  have hfield := lookup_of_sorted_eq h hkeys hkeys
  rw [Term.faithful_toJson before before' (Option.some.inj (hfield "before")),
    Term.faithful_toJson after after' (Option.some.inj (hfield "after")),
    Position.faithful_name.array path path' (Option.some.inj (hfield "path")),
    StepDetails.faithful_toJson details details' (Option.some.inj (hfield "details"))]

theorem Trace.faithful_toJson : Faithful Trace.toJson := by
  rintro ⟨t, steps⟩ ⟨t', steps'⟩ h
  have hkeys : ["initial", "steps"].Nodup := by decide
  have hfield := lookup_of_sorted_eq h hkeys hkeys
  rw [Term.faithful_toJson t t' (Option.some.inj (hfield "initial")),
    Step.faithful_toJson.array steps steps' (Option.some.inj (hfield "steps"))]

/-- A trace with the fields of its steps in order. -/
theorem Trace.sorted_toJson (t : Trace) : t.toJson.sorted = .object
    [("initial", t.initial.toJson.sorted),
      ("steps", .array (t.steps.map fun s => s.toJson.sorted))] := by
  have horder : ["initial", "steps"].Pairwise (· < ·) := by decide
  have hfields := sortFields_eq
    (.refl [("initial", t.initial.toJson), ("steps", .array (t.steps.map Step.toJson))]) horder
  rw [toJson, sorted_object, hfields]
  simp [sorted_array]

end PrimeLanguage
