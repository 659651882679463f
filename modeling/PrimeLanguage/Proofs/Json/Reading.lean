import Mathlib.Data.List.Forall2
import Mathlib.Data.List.Nodup
import PrimeLanguage.Json.Basic
import PrimeLanguage.Proofs.Text
import PrimeLanguage.Settings.Toml.Quoted

/-!
# Documents read back

`Json.read?` reads a document from its text.  Whatever is written by `Json.pretty` is read back as
it was (`Json.read?_pretty`), with the fields of every object in the order of their keys
(`Json.sorted`).  Hence two documents with one text differ in the order of fields at most.

* `Json.readString`, `Json.readNumber` — strings behind their opening quote, and numbers;
* `Json.readBlock` — parts between brackets, against `Json.block`;
* `Json.readValue` — a document, within which others nest at most so deep.

Readers take the text that is left and return what is left behind them.
-/

namespace PrimeLanguage

namespace Json

/-! ## The order of fields -/

mutual

/-- The document with the fields of every object in the order of their keys. -/
def sorted : Json → Json
  | .null => .null
  | .boolean b => .boolean b
  | .number n => .number n
  | .text s => .text s
  | .array items => .array (sortedItems items)
  | .object fields => .object (sortFields (sortedFields fields))

def sortedItems : List Json → List Json
  | [] => []
  | j :: js => sorted j :: sortedItems js

def sortedFields : List (String × Json) → List (String × Json)
  | [] => []
  | (key, j) :: fs => (key, sorted j) :: sortedFields fs

end

/-- Induction on documents; an array brings a hypothesis for each item, an object for each field. -/
@[elab_as_elim]
theorem induction {motive : Json → Prop}
    (null : motive .null)
    (boolean : ∀ b, motive (.boolean b))
    (number : ∀ n, motive (.number n))
    (text : ∀ s, motive (.text s))
    (array : ∀ items, (∀ j ∈ items, motive j) → motive (.array items))
    (object : ∀ fields, (∀ f ∈ fields, motive f.2) → motive (.object fields))
    (j : Json) : motive j :=
  @Json.rec motive (fun js => ∀ j ∈ js, motive j) (fun fs => ∀ f ∈ fs, motive f.2)
    (fun f => motive f.2)
    null boolean number text array object
    (fun _ h => absurd h List.not_mem_nil)
    (fun _ _ hd tl _ h => (List.mem_cons.1 h).elim (fun e => e ▸ hd) (tl _))
    (fun _ h => absurd h List.not_mem_nil)
    (fun _ _ hd tl _ h => (List.mem_cons.1 h).elim (fun e => e ▸ hd) (tl _))
    (fun _ _ h => h)
    j

section SortFields

variable {α β : Type}

theorem perm_sortFields (fields : List (String × α)) : (sortFields fields).Perm fields :=
  List.mergeSort_perm fields _

theorem mem_sortFields {fields : List (String × α)} {f : String × α} :
    f ∈ sortFields fields ↔ f ∈ fields :=
  (perm_sortFields fields).mem_iff

theorem pairwise_sortFields (fields : List (String × α)) :
    (sortFields fields).Pairwise fun f g => decide (f.1 ≤ g.1) = true := by
  refine List.pairwise_mergeSort ?_ ?_ fields
  · intro f g h hfg hgh
    simp only [decide_eq_true_eq] at hfg hgh ⊢
    exact String.le_trans hfg hgh
  · intro f g
    simp only [Bool.or_eq_true, decide_eq_true_eq]
    exact String.le_total f.1 g.1

theorem sortFields_sortFields (fields : List (String × α)) :
    sortFields (sortFields fields) = sortFields fields :=
  List.mergeSort_of_pairwise (pairwise_sortFields fields)

/-- Fields under different keys have one order. -/
theorem sortFields_eq {fields fields' : List (String × α)} (hperm : fields.Perm fields')
    (horder : (fields'.map Prod.fst).Pairwise (· < ·)) : sortFields fields = fields' := by
  have hnodup : (fields'.map Prod.fst).Nodup := horder.imp String.ne_of_lt
  have hpairwise : fields'.Pairwise fun f g => decide (f.1 ≤ g.1) = true :=
    (List.pairwise_map.1 horder).imp fun h => decide_eq_true (String.not_lt.1 (String.lt_asymm h))
  refine List.Perm.eq_of_pairwise ?_ (pairwise_sortFields fields) hpairwise
    ((perm_sortFields fields).trans hperm)
  intro f g hf hg hfg hgf
  rw [decide_eq_true_eq] at hfg hgf
  exact List.inj_on_of_nodup_map hnodup (hperm.mem_iff.1 (mem_sortFields.1 hf)) hg
    (String.le_antisymm hfg hgf)

/-- Fields are sorted by their keys, whatever their values are. -/
theorem sortFields_map (g : α → β) (fields : List (String × α)) :
    sortFields (fields.map fun f => (f.1, g f.2)) =
      (sortFields fields).map fun f => (f.1, g f.2) :=
  (List.map_mergeSort (f := fun f : String × α => (f.1, g f.2)) fun _ _ _ _ => rfl).symm

theorem lookup_map (g : α → β) (fields : List (String × α)) (key : String) :
    (fields.map fun f => (f.1, g f.2)).lookup key = (fields.lookup key).map g := by
  induction fields with
  | nil => rfl
  | cons f fs ih =>
    rw [List.map_cons, List.lookup_cons, List.lookup_cons, ih]
    split <;> rfl

/-- Under different keys a value is found exactly if it is there. -/
theorem lookup_eq_some_iff_mem {fields : List (String × α)} (h : (fields.map Prod.fst).Nodup)
    {key : String} {a : α} : fields.lookup key = some a ↔ (key, a) ∈ fields := by
  induction fields with
  | nil => simp
  | cons f fs ih =>
    obtain ⟨key', a'⟩ := f
    obtain ⟨hnew, hnodup⟩ := List.nodup_cons.1 h
    rw [List.lookup_cons, List.mem_cons]
    by_cases hkey : key = key'
    · subst hkey
      have habsent : (key, a) ∉ fs := fun hmem => hnew (List.mem_map.2 ⟨_, hmem, rfl⟩)
      simp [habsent, eq_comm]
    · simp [beq_eq_false_iff_ne.2 hkey, hkey, ih hnodup]

/-- Different keys find the same in any order. -/
theorem lookup_sortFields {fields : List (String × α)} (h : (fields.map Prod.fst).Nodup)
    (key : String) : (sortFields fields).lookup key = fields.lookup key := by
  have hkeys : ((sortFields fields).map Prod.fst).Perm (fields.map Prod.fst) :=
    (perm_sortFields fields).map Prod.fst
  refine Option.ext fun a => ?_
  rw [lookup_eq_some_iff_mem h, lookup_eq_some_iff_mem (hkeys.nodup_iff.2 h), mem_sortFields]

end SortFields

theorem sorted_array (items : List Json) : (array items).sorted = .array (items.map sorted) := by
  have hitems (items : List Json) : sortedItems items = items.map sorted := by
    induction items with
    | nil => rfl
    | cons j js ih => rw [sortedItems, ih, List.map_cons]
  rw [sorted, hitems]

theorem sorted_object (fields : List (String × Json)) :
    (object fields).sorted = .object ((sortFields fields).map fun f => (f.1, f.2.sorted)) := by
  have hfields (fields : List (String × Json)) :
      sortedFields fields = fields.map fun f => (f.1, f.2.sorted) := by
    induction fields with
    | nil => rfl
    | cons f fs ih => rw [sortedFields, ih, List.map_cons]
  rw [sorted, hfields, sortFields_map]

theorem prettyAt_array (depth : Nat) (items : List Json) :
    prettyAt depth (.array items) = block "[" "]" depth (items.map (prettyAt (depth + 1))) := by
  have hitems (items : List Json) :
      prettyItems (depth + 1) items = items.map (prettyAt (depth + 1)) := by
    induction items with
    | nil => rfl
    | cons j js ih => rw [prettyItems, ih, List.map_cons]
  rw [prettyAt, hitems]

theorem prettyAt_object (depth : Nat) (fields : List (String × Json)) :
    prettyAt depth (.object fields) = block "\x7b" "\x7d" depth
      ((sortFields fields).map fun f => quote f.1 ++ ": " ++ prettyAt (depth + 1) f.2) := by
  have hfields (fields : List (String × Json)) : prettyFields (depth + 1) fields =
      fields.map fun f => (f.1, prettyAt (depth + 1) f.2) := by
    induction fields with
    | nil => rfl
    | cons f fs ih => rw [prettyFields, ih, List.map_cons]
  rw [prettyAt, hfields, sortFields_map, List.map_map]
  rfl

/-! ## Blanks, strings and numbers -/

def isBlank (c : Char) : Bool := c == ' ' || c == '\n' || c == '\t' || c == '\r'

def skipBlanks (cs : List Char) : List Char := cs.dropWhile isBlank

/-- The character whose code is written in four hexadecimal digits. -/
def codeChar? (a b c d : Char) : Option Char := do
  let code := 16 * (16 * (16 * (← Toml.hexValue? a) + (← Toml.hexValue? b)) +
    (← Toml.hexValue? c)) + (← Toml.hexValue? d)
  if code.isValidChar then some (Char.ofNat code) else none

/-- The character that stands behind a backslash for another one. -/
def unescape? : Char → Option Char
  | '"' => some '"'
  | '\\' => some '\\'
  | '/' => some '/'
  | 'n' => some '\n'
  | 't' => some '\t'
  | 'r' => some '\r'
  | 'b' => some '\x08'
  | 'f' => some '\x0c'
  | _ => none

/-- The characters of a string behind its opening quote, and what follows the closing one. -/
def readString : List Char → Option (List Char × List Char)
  | [] => none
  | '"' :: cs => some ([], cs)
  | '\\' :: 'u' :: a :: b :: c :: d :: cs => do
    let char ← codeChar? a b c d
    (readString cs).map fun (s, cs) => (char :: s, cs)
  | '\\' :: c :: cs => do
    let char ← unescape? c
    (readString cs).map fun (s, cs) => (char :: s, cs)
  | c :: cs => if c.toNat < 32 then none else (readString cs).map fun (s, cs) => (c :: s, cs)

/-- A number without leading zeros, and what follows it. -/
def readNumber (cs : List Char) : Option (Nat × List Char) :=
  let digits := cs.takeWhile Char.isDigit
  let n := Nat.ofDigitChars 10 digits 0
  if Nat.toDigits 10 n = digits then some (n, cs.dropWhile Char.isDigit) else none

/-! ## Values -/

section Parts

variable {α : Type}

/-- Reads parts between commas up to the closing bracket, at most so many. -/
def readParts (readPart : List Char → Option (α × List Char)) (closing : Char) :
    (bound : Nat) → List Char → Option (List α × List Char)
  | 0, _ => none
  | n + 1, cs => do
    let (a, cs) ← readPart (skipBlanks cs)
    match skipBlanks cs with
    | ',' :: cs => (readParts readPart closing n cs).map fun (as, cs) => (a :: as, cs)
    | c :: cs => if c = closing then some ([a], cs) else none
    | [] => none

/-- Reads the parts between two brackets, behind the opening one. -/
def readBlock (readPart : List Char → Option (α × List Char)) (closing : Char) (bound : Nat)
    (cs : List Char) : Option (List α × List Char) :=
  match skipBlanks cs with
  | c :: rest => if c = closing then some ([], rest) else readParts readPart closing bound cs
  | [] => none

/-- Reads a field of an object, given how to read its value. -/
def readField (readPart : List Char → Option (α × List Char)) :
    List Char → Option ((String × α) × List Char)
  | '"' :: cs => do
    let (key, cs) ← readString cs
    match skipBlanks cs with
    | ':' :: cs => (readPart (skipBlanks cs)).map fun (a, cs) => ((String.ofList key, a), cs)
    | _ => none
  | _ => none

end Parts

/-- Reads a document within which others nest less than `bound` deep. -/
def readValue : (bound : Nat) → List Char → Option (Json × List Char)
  | 0, _ => none
  | n + 1, cs =>
    match cs with
    | '"' :: cs => (readString cs).map fun (s, cs) => (.text (String.ofList s), cs)
    | '[' :: cs => (readBlock (readValue n) ']' n cs).map fun (items, cs) => (.array items, cs)
    | '\x7b' :: cs =>
      (readBlock (readField (readValue n)) '\x7d' n cs).map fun (fields, cs) => (.object fields, cs)
    | 'n' :: 'u' :: 'l' :: 'l' :: cs => some (.null, cs)
    | 't' :: 'r' :: 'u' :: 'e' :: cs => some (.boolean true, cs)
    | 'f' :: 'a' :: 'l' :: 's' :: 'e' :: cs => some (.boolean false, cs)
    | cs => (readNumber cs).map fun (n, cs) => (.number n, cs)

/-- Reads the document that a text is, with blanks around it. -/
def read? (text : String) : Option Json := do
  let (j, rest) ← readValue (text.length + 1) (skipBlanks text.toList)
  if (skipBlanks rest).isEmpty then some j else none

/-! ## Strings read back -/

theorem codeChar?_control {n : Nat} (hn : n < 16) :
    codeChar? '0' '0' '0' (Nat.digitChar n) = some (Char.ofNat n) ∧
      codeChar? '0' '0' '1' (Nat.digitChar n) = some (Char.ofNat (16 + n)) := by
  revert n
  decide

/-- A character that is written as it is. -/
theorem readString_plain {c : Char} (hquote : c ≠ '"') (hslash : c ≠ '\\') (hcode : 32 ≤ c.toNat)
    (cs : List Char) :
    readString (c :: cs) = (readString cs).map fun (s, cs) => (c :: s, cs) := by
  have hcontrol : ¬ c.toNat < 32 := Nat.not_lt.2 hcode
  rw [readString.eq_def]
  split
  case h_5 heq =>
    cases heq
    exact if_neg hcontrol
  all_goals simp_all

theorem readString_code {a b c d char : Char} (h : codeChar? a b c d = some char)
    (cs : List Char) :
    readString ('\\' :: 'u' :: a :: b :: c :: d :: cs) =
      (readString cs).map fun (s, cs) => (char :: s, cs) := by
  rw [readString, h]
  rfl

theorem readString_escapeChar (c : Char) (cs : List Char) :
    readString (escapeChar c ++ cs) = (readString cs).map fun (s, cs) => (c :: s, cs) := by
  by_cases hnamed : c ∈ ['"', '\\', '\n', '\t', '\r', '\x08', '\x0c']
  · simp only [List.mem_cons, List.not_mem_nil, or_false] at hnamed
    rcases hnamed with rfl | rfl | rfl | rfl | rfl | rfl | rfl <;> rfl
  · simp only [List.mem_cons, List.not_mem_nil, or_false, not_or] at hnamed
    obtain ⟨hquote, hslash, hline, htab, hreturn, hback, hfeed⟩ := hnamed
    simp only [escapeChar, beq_iff_eq, hquote, hslash, hline, htab, hreturn, hback, hfeed, if_false]
    split
    next hlow =>
      have hcode := (codeChar?_control hlow).1
      rw [Char.ofNat_toNat] at hcode
      rw [Nat.toDigits_of_lt_base hlow]
      exact readString_code hcode cs
    split
    next hlow hcontrol =>
      have hdiv : c.toNat / 16 = 1 := by omega
      have hmod : c.toNat % 16 < 16 := Nat.mod_lt _ (by decide)
      have hcode := (codeChar?_control hmod).2
      rw [show 16 + c.toNat % 16 = c.toNat by omega, Char.ofNat_toNat] at hcode
      rw [Nat.toDigits_of_base_le (by decide) (by omega), hdiv]
      exact readString_code hcode cs
    next hcontrol => exact readString_plain hquote hslash (by omega) cs

/-- The characters of a string are read back up to its closing quote. -/
theorem readString_flatMap (s rest : List Char) :
    readString (s.flatMap escapeChar ++ '"' :: rest) = some (s, rest) := by
  induction s with
  | nil => rfl
  | cons c s ih =>
    rw [List.flatMap_cons, List.append_assoc, readString_escapeChar, ih]
    rfl

theorem toList_quote (s : String) (rest : List Char) :
    (quote s).toList ++ rest = '"' :: (s.toList.flatMap escapeChar ++ '"' :: rest) := by
  simp [quote]

/-! ## Numbers read back -/

theorem readNumber_toDigits (n : Nat) {rest : List Char} (hrest : StopsAt Char.isDigit rest) :
    readNumber (Nat.toDigits 10 n ++ rest) = some (n, rest) := by
  simp [readNumber, hrest.takeWhile_append (isDigit_toDigits n),
    hrest.dropWhile_append (isDigit_toDigits n), Nat.ofDigitChars_ten_toDigits]

/-! ## Blocks read back -/

theorem toList_newline (depth : Nat) :
    (newline depth).toList = '\n' :: List.replicate (2 * depth) ' ' :=
  toList_pushn "\n" ' ' _

theorem skipBlanks_newline (depth : Nat) (cs : List Char) :
    skipBlanks ((newline depth).toList ++ cs) = skipBlanks cs := by
  refine List.dropWhile_append_of_pos fun c hc => ?_
  rw [toList_newline, List.mem_cons] at hc
  rcases hc with rfl | hc
  · rfl
  · rw [List.eq_of_mem_replicate hc]
    rfl

theorem skipBlanks_of_not {c : Char} (h : isBlank c = false) (cs : List Char) :
    skipBlanks (c :: cs) = c :: cs :=
  List.dropWhile_cons_of_neg (by simp [h])

/-- Parts take room, and so do the separators between them. -/
theorem length_intercalate {sep : List Char} (hsep : sep ≠ []) {texts : List (List Char)} :
    ∀ text ∈ texts, text.length + texts.length ≤ (sep.intercalate texts).length + 1 := by
  have hpos := List.length_pos_iff.2 hsep
  induction texts with
  | nil => exact nofun
  | cons t ts ih =>
    cases ts with
    | nil => simp
    | cons t' ts =>
      rw [List.intercalate_cons_cons, List.forall_mem_cons]
      simp only [List.length_append, List.length_cons] at ih ⊢
      refine ⟨?_, fun text htext => ?_⟩
      · have := ih t' List.mem_cons_self
        omega
      · have := ih text htext
        omega

section Parts

variable {α : Type} {readPart : List Char → Option (α × List Char)} {closing : Char}
  {text cs rest : List Char} {a : α}

/-- The text of a part is not blank at its front, is no closing bracket, and the part is read from
it, whatever follows but a digit. -/
structure ReadsBack (readPart : List Char → Option (α × List Char)) (text : List Char) (a : α) :
    Prop where
  first : ∃ c cs, text = c :: cs ∧ isBlank c = false ∧ c ≠ ']' ∧ c ≠ '\x7d'
  reads : ∀ rest, StopsAt Char.isDigit rest → readPart (text ++ rest) = some (a, rest)

theorem ReadsBack.skipBlanks_append (h : ReadsBack readPart text a) (rest : List Char) :
    skipBlanks (text ++ rest) = text ++ rest := by
  obtain ⟨c, cs, rfl, hc, _⟩ := h.first
  exact skipBlanks_of_not hc _

/-- The last part stands in front of the closing bracket. -/
theorem readParts_last {n : Nat} (h : ReadsBack readPart text a) (depth : Nat)
    (hclosing : closing = ']' ∨ closing = '\x7d') :
    readParts readPart closing (n + 1) (text ++ ((newline depth).toList ++ closing :: rest)) =
      some ([a], rest) := by
  have hnext : StopsAt Char.isDigit ((newline depth).toList ++ closing :: rest) := by
    rw [toList_newline]
    exact stopsAt_cons rfl _
  rw [readParts, h.skipBlanks_append, h.reads _ hnext]
  rcases hclosing with rfl | rfl
  · simp [skipBlanks_newline, skipBlanks_of_not (c := ']') rfl]
  · simp [skipBlanks_newline, skipBlanks_of_not (c := '\x7d') rfl]

/-- Other parts stand in front of a comma and a new line. -/
theorem readParts_cons {n : Nat} (h : ReadsBack readPart text a) (cs : List Char) :
    readParts readPart closing (n + 1) (text ++ ',' :: cs) =
      (readParts readPart closing n cs).map fun (as, cs) => (a :: as, cs) := by
  have hnext : StopsAt Char.isDigit (',' :: cs) := stopsAt_cons rfl cs
  simp [readParts, h.skipBlanks_append, h.reads _ hnext, skipBlanks_of_not (c := ',') rfl]

theorem readParts_newline {n depth : Nat} :
    readParts readPart closing n ((newline depth).toList ++ cs) =
      readParts readPart closing n cs := by
  cases n with
  | zero => rfl
  | succ n => rw [readParts, readParts, skipBlanks_newline]

/-- Parts on lines of their own are read back. -/
theorem readParts_intercalate {texts : List (List Char)} {as : List α} (depth : Nat)
    (h : List.Forall₂ (ReadsBack readPart) texts as) (hne : texts ≠ []) {n : Nat}
    (hn : texts.length ≤ n) (hclosing : closing = ']' ∨ closing = '\x7d') :
    readParts readPart closing n
      ((',' :: (newline (depth + 1)).toList).intercalate texts ++
        ((newline depth).toList ++ closing :: rest)) = some (as, rest) := by
  induction h generalizing n with
  | nil => exact absurd rfl hne
  | @cons text a texts as hpart hparts ih =>
    obtain ⟨n, rfl⟩ := Nat.exists_eq_add_one_of_ne_zero (Nat.ne_zero_of_lt hn)
    cases hparts with
    | nil =>
      rw [List.intercalate_singleton]
      exact readParts_last hpart depth hclosing
    | cons hpart' hparts' =>
      rw [List.intercalate_cons_cons, List.append_assoc, List.append_assoc, List.cons_append,
        readParts_cons hpart, readParts_newline, ih nofun (Nat.le_of_succ_le_succ hn)]
      rfl

/-- What begins with no closing bracket is read as parts. -/
theorem readBlock_of_part {n : Nat} {sep : List Char} {texts : List (List Char)}
    (h : ReadsBack readPart text a) (hclosing : closing = ']' ∨ closing = '\x7d') :
    readBlock readPart closing n (sep.intercalate (text :: texts) ++ rest) =
      readParts readPart closing n (sep.intercalate (text :: texts) ++ rest) := by
  obtain ⟨c, cs, rfl, hblank, hbracket, hbrace⟩ := h.first
  have hne : c ≠ closing := by rcases hclosing with rfl | rfl <;> assumption
  obtain ⟨more, hmore⟩ : ∃ more, sep.intercalate ((c :: cs) :: texts) = c :: more := by
    cases texts with
    | nil => exact ⟨cs, List.intercalate_singleton⟩
    | cons t ts => exact ⟨_, List.intercalate_cons_cons⟩
  rw [hmore, List.cons_append, readBlock, skipBlanks_of_not hblank]
  exact if_neg hne

theorem readBlock_newline {n depth : Nat} :
    readBlock readPart closing n ((newline depth).toList ++ cs) =
      readBlock readPart closing n cs := by
  rw [readBlock, readBlock, skipBlanks_newline, readParts_newline]

/-- The parts of a block are read back behind its opening bracket. -/
theorem readBlock_block {parts : List String} {as : List α} (opening : String) (depth : Nat)
    (h : List.Forall₂ (ReadsBack readPart) (parts.map String.toList) as) {n : Nat}
    (hn : parts.length ≤ n) (hclosing : closing = ']' ∨ closing = '\x7d') (rest : List Char) :
    ∃ cs, (block opening (String.singleton closing) depth parts).toList ++ rest =
        opening.toList ++ cs ∧
      readBlock readPart closing n cs = some (as, rest) := by
  cases parts with
  | nil =>
    cases h
    refine ⟨closing :: rest, by simp [block], ?_⟩
    rcases hclosing with rfl | rfl <;> rfl
  | cons part parts =>
    refine ⟨(newline (depth + 1)).toList ++ ((',' :: (newline (depth + 1)).toList).intercalate
      ((part :: parts).map String.toList) ++ ((newline depth).toList ++ closing :: rest)), ?_, ?_⟩
    · simp [block, String.toList_intercalate]
    · obtain ⟨a, as, hpart, hparts, rfl⟩ := List.forall₂_cons_left_iff.1 h
      rw [readBlock_newline, List.map_cons, readBlock_of_part hpart hclosing]
      exact readParts_intercalate depth h nofun (by rwa [List.length_map]) hclosing

/-- A block is longer than any of its parts, by the number of parts. -/
theorem length_block {as : List α} (write : α → String) (ha : a ∈ as) (opening closing : String)
    (depth : Nat) :
    (write a).length + as.length < (block opening closing depth (as.map write)).length := by
  have hsep : ("," ++ newline (depth + 1)).toList ≠ [] := by simp
  have hlength := length_intercalate hsep (write a).toList
    (List.mem_map_of_mem (List.mem_map_of_mem ha))
  have hne : (as.map write).isEmpty = false := by
    cases as with
    | nil => cases ha
    | cons => rfl
  rw [List.length_map, List.length_map, String.length_toList] at hlength
  rw [← String.length_toList (s := block _ _ _ _), block, hne]
  simp only [Bool.false_eq_true, if_false, String.toList_append, List.length_append, toList_newline,
    List.length_cons, String.toList_intercalate] at hlength ⊢
  omega

theorem length_le_length_block (as : List α) (write : α → String) (opening closing : String)
    (depth : Nat) : as.length ≤ (block opening closing depth (as.map write)).length := by
  cases as with
  | nil => exact Nat.zero_le _
  | cons a as =>
    have := length_block write (List.mem_cons_self (a := a) (l := as)) opening closing depth
    omega

end Parts

/-! ## Documents read back -/

theorem ne_of_isDigit {c x : Char} (hc : c.isDigit = true) (hx : x.isDigit = false) : c ≠ x := by
  rintro rfl
  rw [hc] at hx
  cases hx

theorem isBlank_of_isDigit {c : Char} (h : c.isDigit = true) : isBlank c = false := by
  simp [isBlank, ne_of_isDigit h]

/-- A digit begins a number. -/
theorem readValue_digit {c : Char} (h : c.isDigit = true) (n : Nat) (cs : List Char) :
    readValue (n + 1) (c :: cs) = (readNumber (c :: cs)).map fun (n, cs) => (.number n, cs) := by
  rw [readValue]
  all_goals
    intro _ heq
    cases heq
    cases h

theorem exists_block_eq (opening closing : String) (depth : Nat) (parts : List String) :
    ∃ cs, (block opening closing depth parts).toList = opening.toList ++ cs := by
  unfold block
  split
  · exact ⟨_, String.toList_append⟩
  · simp only [String.append_assoc]
    exact ⟨_, String.toList_append⟩

/-- The text of a document begins with no blank and no closing bracket. -/
theorem exists_prettyAt_eq_cons (depth : Nat) (j : Json) :
    ∃ c cs, (prettyAt depth j).toList = c :: cs ∧ isBlank c = false ∧ c ≠ ']' ∧ c ≠ '\x7d' := by
  cases j with
  | null => exact ⟨'n', ['u', 'l', 'l'], by simp [prettyAt], by decide⟩
  | boolean b =>
    cases b with
    | false => exact ⟨'f', ['a', 'l', 's', 'e'], by simp [prettyAt], by decide⟩
    | true => exact ⟨'t', ['r', 'u', 'e'], by simp [prettyAt], by decide⟩
  | number n =>
    obtain ⟨c, cs, hdigits, hc⟩ := exists_toDigits_eq_cons n
    refine ⟨c, cs, ?_, isBlank_of_isDigit hc, ne_of_isDigit hc rfl, ne_of_isDigit hc rfl⟩
    rw [← hdigits, prettyAt]
    simp
  | text s => exact ⟨'"', _, by simpa [prettyAt] using toList_quote s [], by decide⟩
  | array items =>
    obtain ⟨cs, hcs⟩ := exists_block_eq "[" "]" depth (items.map (prettyAt (depth + 1)))
    rw [prettyAt_array]
    exact ⟨'[', cs, hcs, by decide⟩
  | object fields =>
    obtain ⟨cs, hcs⟩ := exists_block_eq "\x7b" "\x7d" depth
      ((sortFields fields).map fun f => quote f.1 ++ ": " ++ prettyAt (depth + 1) f.2)
    rw [prettyAt_object]
    exact ⟨'\x7b', cs, hcs, by decide⟩

/-- A field is read back if its value is. -/
theorem ReadsBack.field {α : Type} {readPart : List Char → Option (α × List Char)} {value : String}
    {a : α} (h : ReadsBack readPart value.toList a) (key : String) :
    ReadsBack (readField readPart) (quote key ++ ": " ++ value).toList (key, a) := by
  have hquote (rest : List Char) : (quote key ++ ": " ++ value).toList ++ rest =
      '"' :: (key.toList.flatMap escapeChar ++ '"' :: ':' :: ' ' :: (value.toList ++ rest)) := by
    simp [quote]
  refine ⟨⟨'"', _, by simpa using hquote [], by decide, by decide, by decide⟩, fun rest hrest => ?_⟩
  have hskip : skipBlanks (' ' :: (value.toList ++ rest)) = value.toList ++ rest :=
    h.skipBlanks_append rest
  simp only [hquote, readField, readString_flatMap, Option.bind_eq_bind, Option.bind_some,
    skipBlanks_of_not (c := ':') rfl, hskip, h.reads rest hrest, Option.map_some,
    String.ofList_toList]

/-- Items are read back one by one. -/
theorem readsBack_array {items : List Json} {depth n : Nat}
    (h : ∀ j ∈ items, ReadsBack (readValue n) (prettyAt (depth + 1) j).toList j.sorted)
    (hn : items.length ≤ n) :
    ReadsBack (readValue (n + 1)) (prettyAt depth (.array items)).toList
      (Json.array items).sorted := by
  refine ⟨exists_prettyAt_eq_cons depth _, fun rest _ => ?_⟩
  have hparts : List.Forall₂ (ReadsBack (readValue n))
      ((items.map (prettyAt (depth + 1))).map String.toList) (items.map sorted) := by
    rw [List.forall₂_map_right_iff, List.map_map, List.forall₂_map_left_iff, List.forall₂_same]
    exact h
  obtain ⟨cs, htext, hread⟩ := readBlock_block (n := n) "[" depth hparts
    (by rwa [List.length_map]) (.inl rfl) rest
  rw [prettyAt_array, sorted_array]
  change readValue (n + 1) ((block "[" (String.singleton ']') depth _).toList ++ rest) = _
  rw [htext]
  change readValue (n + 1) ('[' :: cs) = _
  rw [readValue, hread]
  rfl

/-- Fields are read back one by one, in the order of their keys. -/
theorem readsBack_object {fields : List (String × Json)} {depth n : Nat}
    (h : ∀ f ∈ fields, ReadsBack (readValue n) (prettyAt (depth + 1) f.2).toList f.2.sorted)
    (hn : fields.length ≤ n) :
    ReadsBack (readValue (n + 1)) (prettyAt depth (.object fields)).toList
      (Json.object fields).sorted := by
  refine ⟨exists_prettyAt_eq_cons depth _, fun rest _ => ?_⟩
  have hparts : List.Forall₂ (ReadsBack (readField (readValue n)))
      (((sortFields fields).map fun f => quote f.1 ++ ": " ++ prettyAt (depth + 1) f.2).map
        String.toList) ((sortFields fields).map fun f => (f.1, f.2.sorted)) := by
    rw [List.forall₂_map_right_iff, List.map_map, List.forall₂_map_left_iff, List.forall₂_same]
    exact fun f hf => (h f (mem_sortFields.1 hf)).field f.1
  obtain ⟨cs, htext, hread⟩ := readBlock_block (n := n) "\x7b" depth hparts
    (by rwa [List.length_map, sortFields, List.length_mergeSort]) (.inr rfl) rest
  rw [prettyAt_object, sorted_object]
  change readValue (n + 1) ((block "\x7b" (String.singleton '\x7d') depth _).toList ++ rest) = _
  rw [htext]
  change readValue (n + 1) ('\x7b' :: cs) = _
  rw [readValue, hread]
  rfl

/-- **A document is read back from its text**, up to the order of fields. -/
theorem readsBack_prettyAt (j : Json) (depth n : Nat) (hn : (prettyAt depth j).length < n) :
    ReadsBack (readValue n) (prettyAt depth j).toList j.sorted := by
  obtain ⟨n, rfl⟩ := Nat.exists_eq_add_one_of_ne_zero (Nat.ne_zero_of_lt hn)
  induction j using Json.induction generalizing depth n with
  | null =>
    exact ⟨exists_prettyAt_eq_cons depth _, by simp [prettyAt, readValue, sorted]⟩
  | boolean b =>
    refine ⟨exists_prettyAt_eq_cons depth _, ?_⟩
    cases b <;> simp [prettyAt, readValue, sorted]
  | number k =>
    refine ⟨exists_prettyAt_eq_cons depth _, fun rest hrest => ?_⟩
    obtain ⟨c, cs, hdigits, hc⟩ := exists_toDigits_eq_cons k
    have htext : (prettyAt depth (.number k)).toList = Nat.toDigits 10 k := by simp [prettyAt]
    rw [htext, hdigits, List.cons_append, readValue_digit hc, ← List.cons_append, ← hdigits,
      readNumber_toDigits k hrest]
    rfl
  | text s =>
    refine ⟨exists_prettyAt_eq_cons depth _, fun rest _ => ?_⟩
    rw [prettyAt, toList_quote, readValue, readString_flatMap]
    simp [sorted]
  | array items ih =>
    rw [prettyAt_array] at hn
    have hcount := length_le_length_block items (prettyAt (depth + 1)) "[" "]" depth
    refine readsBack_array (fun j hj => ?_) (by omega)
    have hroom := length_block (prettyAt (depth + 1)) hj "[" "]" depth
    obtain ⟨n, rfl⟩ := Nat.exists_eq_add_one_of_ne_zero (show n ≠ 0 by omega)
    exact ih j hj (depth + 1) n (by omega)
  | object fields ih =>
    rw [prettyAt_object] at hn
    generalize hwrite : (fun f : String × Json =>
      quote f.1 ++ ": " ++ prettyAt (depth + 1) f.2) = write at hn
    have hcount := length_le_length_block (sortFields fields) write "\x7b" "\x7d" depth
    have hsort : (sortFields fields).length = fields.length := List.length_mergeSort _
    refine readsBack_object (fun f hf => ?_) (by omega)
    have hroom := length_block write (mem_sortFields.2 hf) "\x7b" "\x7d" depth
    have hvalue : (prettyAt (depth + 1) f.2).length ≤ (write f).length := by
      simp [← hwrite, String.length_append]
    obtain ⟨n, rfl⟩ := Nat.exists_eq_add_one_of_ne_zero (show n ≠ 0 by omega)
    exact ih f hf (depth + 1) n (by omega)

/-- **What is printed is read back**, whatever blanks follow it. -/
theorem read?_pretty (j : Json) {blanks : String} (h : ∀ c ∈ blanks.toList, isBlank c = true) :
    read? (j.pretty ++ blanks) = some j.sorted := by
  have hlength : (prettyAt 0 j).length < (j.pretty ++ blanks).length + 1 := by
    rw [pretty, String.length_append]
    omega
  have hback := readsBack_prettyAt j 0 _ hlength
  have hnext : StopsAt Char.isDigit blanks.toList := by
    intro c hc
    have hblank := h c (List.mem_of_head? hc)
    by_contra hdigit
    rw [isBlank_of_isDigit (by simpa using hdigit)] at hblank
    cases hblank
  have hrest : skipBlanks blanks.toList = [] := List.dropWhile_eq_nil_iff.2 h
  rw [read?, String.toList_append]
  change (readValue _ (skipBlanks ((prettyAt 0 j).toList ++ blanks.toList))).bind _ = _
  rw [hback.skipBlanks_append, hback.reads _ hnext, Option.bind_some]
  exact if_pos (List.isEmpty_iff.2 hrest)

/-- The order of fields makes no difference to what is printed. -/
theorem prettyAt_sorted (j : Json) (depth : Nat) : prettyAt depth j.sorted = prettyAt depth j := by
  induction j using Json.induction generalizing depth with
  | null | boolean | number | text => rfl
  | array items ih =>
    rw [sorted_array, prettyAt_array, prettyAt_array, List.map_map]
    exact congrArg _ (List.map_congr_left fun j hj => ih j hj (depth + 1))
  | object fields ih =>
    rw [sorted_object, prettyAt_object, prettyAt_object, sortFields_map, sortFields_sortFields,
      List.map_map]
    refine congrArg _ (List.map_congr_left fun f hf => ?_)
    exact congrArg (quote f.1 ++ ": " ++ ·) (ih f (mem_sortFields.1 hf) (depth + 1))

/-- **Documents have one text exactly when they are the same up to the order of fields.** -/
theorem pretty_eq_iff {j j' : Json} : j.pretty = j'.pretty ↔ j.sorted = j'.sorted := by
  constructor
  · intro h
    have hblanks : ∀ c ∈ "".toList, isBlank c = true := by simp
    have hread := read?_pretty j hblanks
    rw [h, read?_pretty j' hblanks] at hread
    exact (Option.some.inj hread).symm
  · intro h
    rw [pretty, pretty, ← prettyAt_sorted j, ← prettyAt_sorted j', h]

end Json

end PrimeLanguage
