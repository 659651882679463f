import PrimeLanguage.Conformance.Suite
import PrimeLanguage.Proofs.Operator.Growth
import PrimeLanguage.Proofs.Reduction.Evaluation
import PrimeLanguage.Proofs.Reduction.Exploration
import PrimeLanguage.Proofs.Term.RoundTrip
import PrimeLanguage.Proofs.Typing.Soundness

/-!
# The terms of the corpus

Every source of the corpus is the printed form of a term, so the samples are read as those terms
(`readSamples_eq`, `readPairs_eq`).  The terms are small in every way that a check can notice.

* `Term.Moderate`, `Term.Small` — a typed term of little heft with few orders of reduction, and one
  with at most three steps and two applications besides;
* `Corpus.nounTerms`, `Corpus.sentenceTerms`, `Corpus.illTypedTerms`, `Corpus.pairTerms` — the
  terms.

Principal results: `Term.Small.exists_normalize`, `Corpus.small_wellTypedSamples`.
-/

namespace PrimeLanguage

/-! ## Small terms -/

/-- A term that has a type of the kind, evaluates to small primes and has few orders of
reduction. -/
structure Term.Moderate (kind : Kind) (t : Term) : Prop where
  typed : (infer .empty t).map Ty.kind = .ok kind
  heft : t.heft < trialLimit
  orders : (t.leafSteps.map (· + 1)).prod ≤ maxExplored

/-- A moderate term that takes at most three steps, of which at most two apply. -/
structure Term.Small (kind : Kind) (t : Term) : Prop extends t.Moderate kind where
  steps : t.leafSteps.sum ≤ 3
  applications : t.size ≤ 2 + t.leaves.length

instance (kind : Kind) (t : Term) : Decidable (t.Moderate kind) :=
  decidable_of_iff
    ((infer .empty t).map Ty.kind = .ok kind ∧ t.heft < trialLimit ∧
      (t.leafSteps.map (· + 1)).prod ≤ maxExplored)
    ⟨fun ⟨htyped, hheft, horders⟩ => ⟨htyped, hheft, horders⟩,
      fun h => ⟨h.typed, h.heft, h.orders⟩⟩

instance (kind : Kind) (t : Term) : Decidable (t.Small kind) :=
  decidable_of_iff (t.Moderate kind ∧ t.leafSteps.sum ≤ 3 ∧ t.size ≤ 2 + t.leaves.length)
    ⟨fun ⟨h, hsteps, happlications⟩ => ⟨h, hsteps, happlications⟩,
      fun h => ⟨h.toModerate, h.steps, h.applications⟩⟩

namespace Term

variable {kind : Kind} {t : Term} {e : Engine}

theorem Moderate.exists_infer (h : t.Moderate kind) :
    ∃ ty, infer .empty t = .ok ty ∧ ty.kind = kind :=
  map_eq_ok_iff.1 h.typed

theorem Moderate.evaluates (h : t.Moderate kind) (he : e.operator.AtMostDoubles) :
    e.operator.Evaluates t := by
  obtain ⟨ty, hty, _⟩ := h.exists_infer
  exact (infer_empty_iff.1 hty).evaluates he h.heft

theorem Moderate.exists_confluence (h : t.Moderate kind) (he : e.operator.AtMostDoubles) :
    ∃ report, e.confluence t = .ok report :=
  Engine.exists_confluence (h.evaluates he) h.orders

/-- **Three steps are enough for a small term**, and two of them apply at most. -/
theorem Small.exists_normalize (h : t.Small kind) (he : e.operator.AtMostDoubles)
    (hm : 3 ≤ e.maxSteps) : ∃ trace, e.normalize t = .ok trace ∧ trace.applications ≤ 2 := by
  obtain ⟨trace, htrace⟩ :=
    Engine.exists_normalize_of_evaluates (h.evaluates he) (Nat.le_trans h.steps hm)
  have happlications := Engine.applications_of_normalize htrace
  have hsize := h.applications
  exact ⟨trace, htrace, by omega⟩

/-- With three steps a small term evaluates to its value. -/
theorem Small.evaluate_eq (h : t.Small kind) (he : e.operator.AtMostDoubles)
    (hm : 3 ≤ e.maxSteps) : e.evaluate t = e.operator.value t := by
  obtain ⟨trace, htrace, _⟩ := h.exists_normalize he hm
  rw [Engine.value_of_normalize htrace, Engine.evaluate, htrace]
  rfl

/-- A small noun expression ends in a noun. -/
theorem Small.final_eq_noun {trace : Trace} (h : t.Small .noun)
    (htrace : e.normalize t = .ok trace) : ∃ p, trace.final = .noun p := by
  obtain ⟨ty, hty, hkind⟩ := h.exists_infer
  obtain ⟨i, rfl⟩ := Ty.kind_eq_noun_iff.1 hkind
  obtain ⟨p, hp, _⟩ := (infer_empty_iff.1 hty).ends (Engine.bigStep_of_normalize htrace).1
  exact ⟨p, hp⟩

end Term

/-! ## The terms -/

namespace Corpus

open OverlappingRedexes

/-- What `nouns` is read as. -/
def nounTerms : List Term :=
  [ .noun p7,
    .adj p3,
    .chain (.adj p3) [] (.noun p7),
    .chain (.adj p7) [] (.noun p3),
    .chain (.adj p5) [] (.noun p5),
    .chain (.adj p3) [.adj p2] (.noun p7),
    .chain (.adj p3) [] (.chain (.adj p5) [] (.noun p7)),
    fusion19,
    .chain (.adj p13) [] fusion23 ]

/-- The sample with three steps, two of which apply. -/
def compoundTerm : Term :=
  .join .imp (.join .seq (.sentence (.chain (.adj p7) [] (.noun p3))) (.sentence (.noun p5)))
    (.sentence (.chain (.adj p13) [] fusion23))

/-- What `sentences` is read as. -/
def sentenceTerms : List Term :=
  [ .sentence (.chain (.adj p3) [.adj p2] (.noun p7)),
    .sentence (.chain (.adj p3) [] (.chain (.adj p5) [] (.noun p7))),
    .join .seq (.sentence (.noun p2)) (.sentence fusion19),
    .join .imp (.sentence (.chain (.adj p3) [] (.noun p7)))
      (.sentence (.chain (.adj p2) [] (.noun p11))),
    compoundTerm ]

/-- What `illTyped` is read as. -/
def illTypedTerms : List Term :=
  [ .chain (.noun p3) [] (.noun p7),
    .chain (.adj p3) [] (.adj p5),
    .chain (.adj p3) [] (.sentence (.noun p7)),
    .sentence (.adj p3),
    .join .seq (.noun p2) (.noun p3),
    .fusion ⟨p3, p5, p7, by decide, by decide⟩,
    .chain (.adj p2) [] (.fusion ⟨p3, p7, p11, by decide, by decide⟩) ]

/-- What `pairs` is read as. -/
def pairTerms : List (Term × Term) :=
  [ (.chain (.adj p3) [] (.noun p7), .noun p11),
    (.chain (.adj p7) [] (.noun p3), .chain (.adj p3) [] (.noun p7)),
    (fusion19, .chain (.adj p7) [] (.noun p11)),
    (.chain (.adj p13) [] fusion23, .noun (.ofAccepted 37 (by decide))),
    (.noun p2, .noun p3),
    (.chain (.adj p5) [] (.noun p5), .noun p7) ]

def sentenceSamples : List (Read Sample) := sentences.zip sentenceTerms

def wellTypedSamples : List (Read Sample) := nouns.zip nounTerms ++ sentenceSamples

def illTypedSamples : List (Read IllTyped) := illTyped.zip illTypedTerms

def pairSamples : List (Pair × Term × Term) := pairs.zip pairTerms

/-! ## Reading -/

/-- The source is the printed form of the term, and nests no deeper than the reader goes. -/
def Prints (source : String) (t : Term) : Prop :=
  t.signature = source ∧ t.groupDepth ≤ maxNesting

instance (source : String) (t : Term) : Decidable (Prints source t) :=
  inferInstanceAs (Decidable (_ ∧ _))

theorem Prints.parse_eq {source : String} {t : Term} (h : Prints source t) :
    Term.parse source = .ok t := by
  obtain ⟨rfl, hdepth⟩ := h
  exact Term.parse_of_groupDepth_le hdepth

theorem Prints.corpusParse_eq {source : String} {t : Term} (h : Prints source t) (name : String) :
    parse name source = .ok t := by
  rw [parse, h.parse_eq]
  rfl

/-- **Samples are read as the terms whose printed forms they are.** -/
theorem readSamples_eq {samples : List (Read Sample)}
    (h : ∀ x ∈ samples, Prints x.1.source x.2) :
    readSamples (samples.map Prod.fst) = .ok samples :=
  mapM_eq_ok_iff.2 <| List.forall₂_map_left_iff.2 <| List.forall₂_same.2 fun x hx => by
    rw [(h x hx).corpusParse_eq]
    rfl

theorem readIllTyped_eq {samples : List (Read IllTyped)}
    (h : ∀ x ∈ samples, Prints x.1.source x.2) :
    readIllTyped (samples.map Prod.fst) = .ok samples :=
  mapM_eq_ok_iff.2 <| List.forall₂_map_left_iff.2 <| List.forall₂_same.2 fun x hx => by
    rw [(h x hx).corpusParse_eq]
    rfl

theorem readPairs_eq {samples : List (Pair × Term × Term)}
    (h : ∀ x ∈ samples, Prints x.1.left x.2.1 ∧ Prints x.1.right x.2.2) :
    readPairs (samples.map Prod.fst) = .ok samples :=
  mapM_eq_ok_iff.2 <| List.forall₂_map_left_iff.2 <| List.forall₂_same.2 fun x hx => by
    rw [(h x hx).1.corpusParse_eq, (h x hx).2.corpusParse_eq]
    rfl

theorem prints_wellTypedSamples : ∀ x ∈ wellTypedSamples, Prints x.1.source x.2 := by decide

theorem prints_illTypedSamples : ∀ x ∈ illTypedSamples, Prints x.1.source x.2 := by decide

theorem readSamples_wellTyped : readSamples wellTyped = .ok wellTypedSamples :=
  readSamples_eq prints_wellTypedSamples

theorem readSamples_sentences : readSamples sentences = .ok sentenceSamples :=
  readSamples_eq fun x hx => prints_wellTypedSamples x (List.mem_append_right _ hx)

theorem readIllTyped_illTyped : readIllTyped illTyped = .ok illTypedSamples :=
  readIllTyped_eq prints_illTypedSamples

theorem prints_pairSamples :
    ∀ x ∈ pairSamples, Prints x.1.left x.2.1 ∧ Prints x.1.right x.2.2 := by decide

theorem readPairs_pairs : readPairs pairs = .ok pairSamples :=
  readPairs_eq prints_pairSamples

/-! ## All of them are small -/

theorem small_wellTypedSamples : ∀ x ∈ wellTypedSamples, x.2.Small x.1.kind := by decide

theorem small_sentenceSamples : ∀ x ∈ sentenceSamples, x.2.Small x.1.kind :=
  fun x hx => small_wellTypedSamples x (List.mem_append_right _ hx)

theorem small_pairSamples : ∀ x ∈ pairSamples, x.2.1.Small .noun ∧ x.2.2.Small .noun := by decide

theorem moderate_overlappingRedexes : ∀ t ∈ overlappingRedexes, t.Moderate .sentence := by decide

/-- The compound sample takes no less than three steps, and two of them apply. -/
theorem exists_compoundSample : ∃ s, (s, compoundTerm) ∈ wellTypedSamples ∧
    compoundTerm.leafSteps.sum = 3 ∧ compoundTerm.size = 2 + compoundTerm.leaves.length :=
  ⟨_, List.mem_of_getElem? (i := 13) rfl, by decide, by decide⟩

end Corpus

end PrimeLanguage
