import RequestQuery.Proofs.Filter.Meaning
import RequestQuery.Proofs.Number.Decimal

/-!
# Filters written and read back

A filter is written with its alternatives joined by `OR`, the comparisons of each by `AND`, and every
comparison as a path, a token of its operator and the text of its value. Reading gives back the filter,
with the mantissas and scales of its decimals.
-/

namespace RequestQuery

def Decimal.signedMantissa (d : Decimal) : Int := if d.negative then -d.mantissa else d.mantissa

/-- Digits behind the point, or too large for an integer; and a zero has no sign. -/
def Decimal.Writable (d : Decimal) : Prop :=
  (1 ≤ d.scale ∨
    ¬(Int64.minValue.toInt ≤ d.signedMantissa ∧ d.signedMantissa ≤ Int64.maxValue.toInt)) ∧
  ¬(d.negative = true ∧ d.mantissa = 0)

def Literal.Writable : Literal → Prop
  | .decimal d => d.Writable
  | _ => True

/-- A set has at least two literals. -/
def Value.Writable : Value → Prop
  | .single literal => literal.Writable
  | .set literals => 2 ≤ literals.length ∧ ∀ literal ∈ literals, literal.Writable
  | .range first last => first.Writable ∧ last.Writable

/-- The path is made of names, ranges stand behind operators for ranges only, and any other operator
has a token. -/
structure Comparison.Writable (operators : OperatorTable) (c : Comparison) : Prop where
  path_ne_nil : c.path ≠ []
  names : ∀ name ∈ c.path, IsRun isNameChar name.toList
  range : c.operator.isRangeOnly = true ↔ c.value.isRange = true
  bound : c.operator.isRangeOnly = false → ∃ token, operators.find? token = some c.operator
  value : c.value.Writable

/-- There are alternatives, and each of them has comparisons. -/
structure Filter.Writable (operators : OperatorTable) (filter : Filter) : Prop where
  ne_nil : filter.alternatives ≠ []
  parts : ∀ part ∈ filter.alternatives, part ≠ []
  comparisons : ∀ part ∈ filter.alternatives, ∀ c ∈ part, c.Writable operators

/-- A token a comparison is written with: `=` and `!=` for ranges, else one bound to the operator. -/
def Comparison.Takes (operators : OperatorTable) (c : Comparison) (token : String) : Prop :=
  match c.operator with
  | .between => token = "="
  | .notBetween => token = "!="
  | operator => operators.find? token = some operator

def Comparison.text (c : Comparison) (token : String) : String :=
  pathText c.path ++ token ++ c.value.display

def Filter.text (choice : List (List (Comparison × String))) : String :=
  String.intercalate " OR "
    (choice.map fun part => String.intercalate " AND " (part.map fun c => c.1.text c.2))

/-- The comparisons of a filter, each with a token that it takes. -/
structure Filter.Chooses (operators : OperatorTable) (filter : Filter)
    (choice : List (List (Comparison × String))) : Prop where
  comparisons : choice.map (List.map Prod.fst) = filter.alternatives
  tokens : ∀ part ∈ choice, ∀ c ∈ part, c.1.Takes operators c.2

open Grammar

private theorem intercalate_cons_eq_flatMap (between first : List Char) (more : List (List Char)) :
    between.intercalate (first :: more) = first ++ more.flatMap fun text => between ++ text := by
  induction more generalizing first with
  | nil => simp
  | cons second more ih =>
      rw [List.intercalate_cons_cons, ih, List.flatMap_cons]
      simp

namespace Literal

def spelling : Literal → Spelling
  | .null => .null
  | .boolean b => .boolean b
  | .integer n => .number ⟨decide (n.toInt < 0), Nat.toDigits 10 n.toInt.natAbs, none⟩
  | .decimal d => .number ⟨d.negative, Nat.toDigits 10 (d.mantissa / Nat.pow 10 d.scale),
      if d.scale = 0 then none else some (fixedDigits d.scale (d.mantissa % Nat.pow 10 d.scale))⟩
  | .text s => .quoted s.toList

theorem chars_spelling (l : Literal) : l.spelling.chars = l.chars := by
  cases l with
  | null => rfl
  | boolean b => cases b <;> rfl
  | integer n => simp [spelling, Spelling.chars, Numeral.chars, chars, integerChars]
  | decimal d =>
      by_cases hscale : d.scale = 0 <;>
        simp [spelling, Spelling.chars, Numeral.chars, chars, Decimal.chars, hscale]
  | text s => rfl

theorem spelling_wellFormed (l : Literal) : l.spelling.WellFormed := by
  have hdigits : ∀ n, IsRun Char.isDigit (Nat.toDigits 10 n) :=
    fun n => ⟨Nat.toDigits_ne_nil, all_isDigit_toDigits n⟩
  cases l with
  | null | boolean b | text s => trivial
  | integer n => exact ⟨hdigits _, by simp⟩
  | decimal d =>
      refine ⟨hdigits _, fun digits hmem => ?_⟩
      by_cases hscale : d.scale = 0
      · simp [hscale] at hmem
      · simp only [hscale, if_false, Option.mem_some_iff] at hmem
        subst hmem
        refine ⟨fun hnil => hscale ?_, all_isDigit_fixedDigits _ _⟩
        rw [← length_fixedDigits d.scale (d.mantissa % Nat.pow 10 d.scale), hnil, List.length_nil]

private theorem literal_integer (n : Int64) :
    Numeral.literal ⟨decide (n.toInt < 0), Nat.toDigits 10 n.toInt.natAbs, none⟩ =
      .ok (.integer n) := by
  have hsigned : (if decide (n.toInt < 0) = true then -Int.ofNat n.toInt.natAbs
      else Int.ofNat n.toInt.natAbs) = n.toInt := by
    simp only [decide_eq_true_eq, Int.ofNat_eq_natCast]
    split <;> omega
  have hbounds : Int64.minValue.toInt ≤ n.toInt ∧ n.toInt ≤ Int64.maxValue.toInt :=
    ⟨Int64.le_iff_toInt_le.mp n.minValue_le, Int64.le_iff_toInt_le.mp n.le_maxValue⟩
  simp only [Numeral.literal, Nat.ofDigitChars_ten_toDigits, hsigned, Option.isNone_none, if_true,
    ofInt?, hbounds, and_self, Int64.ofInt_toInt]

private theorem literal_decimal {d : Decimal} (h : d.Writable) :
    Numeral.literal ⟨d.negative, Nat.toDigits 10 (d.mantissa / Nat.pow 10 d.scale),
      if d.scale = 0 then none else some (fixedDigits d.scale (d.mantissa % Nat.pow 10 d.scale))⟩ =
      .ok (.decimal d) := by
  obtain ⟨hrange, hzero⟩ := h
  have hsigned : Decimal.signed? d.negative d.mantissa d.scale = some d :=
    Decimal.signed?_parts fun hnegative hmantissa => hzero ⟨hnegative, hmantissa⟩
  have hread := d.accumulate_written
  by_cases hscale : d.scale = 0
  · -- Without a point the digits would be an integer if they were within its bounds.
    have hlarge : ofInt? d.signedMantissa = none := by
      rw [ofInt?, if_neg (hrange.resolve_left (by omega))]
    have hmantissa : (if d.negative = true then -Int.ofNat d.mantissa else Int.ofNat d.mantissa) =
        d.signedMantissa := rfl
    rw [hscale] at hread hsigned
    simp only [Nat.pow, Nat.div_one, fixedDigits] at hread
    simp only [Numeral.literal, hscale, Nat.pow, Nat.div_one, if_true, Option.isNone_none,
      Nat.ofDigitChars_ten_toDigits, hmantissa, hlarge, Option.getD_none, hread, hsigned]
  · simp only [Numeral.literal, hscale, if_false, Option.isNone_some, Bool.false_eq_true,
      Option.getD_some, hread, hsigned]

theorem spelling_literal {l : Literal} (h : l.Writable) :
    l.spelling.Representable ∧ l.spelling.literal = l := by
  cases l with
  | null | boolean b => exact ⟨trivial, rfl⟩
  | text s => exact ⟨trivial, by simp [spelling, Spelling.literal]⟩
  | integer n =>
      have hliteral := literal_integer n
      exact ⟨⟨_, hliteral⟩, by simp only [spelling, Spelling.literal, hliteral]⟩
  | decimal d =>
      have hliteral := literal_decimal h
      exact ⟨⟨_, hliteral⟩, by simp only [spelling, Spelling.literal, hliteral]⟩

end Literal

namespace Value

/-- How a value is written; only values that can be written matter. -/
def spelling : Value → ValueSpelling
  | .single literal => .single literal.spelling
  | .set (first :: second :: more) =>
      .set first.spelling second.spelling (more.map Literal.spelling)
  | .set _ => .single .null
  | .range first last => .range first.spelling last.spelling

/-- What a spelling of a value that can be written has to be. -/
private structure Spells (v : Value) (s : ValueSpelling) : Prop where
  chars : s.chars = v.chars
  well : s.WellFormed
  number : s.Representable
  value : s.value = v

private theorem spells_spelling {v : Value} (h : v.Writable) : Spells v v.spelling := by
  match v, h with
  | .single l, h =>
      have hread := Literal.spelling_literal h
      refine ⟨l.chars_spelling, ?_, ?_, congrArg _ hread.2⟩
      · simpa [ValueSpelling.WellFormed, ValueSpelling.literals, spelling] using l.spelling_wellFormed
      · simpa [ValueSpelling.Representable, ValueSpelling.literals, spelling] using hread.1
  | .range first last, h =>
      have hfirst := Literal.spelling_literal h.1
      have hlast := Literal.spelling_literal h.2
      refine ⟨?_, ?_, ?_, ?_⟩
      · simp [spelling, ValueSpelling.chars, chars, Literal.chars_spelling]
      · simp [ValueSpelling.WellFormed, ValueSpelling.literals, spelling, Literal.spelling_wellFormed]
      · simp [ValueSpelling.Representable, ValueSpelling.literals, spelling, hfirst.1, hlast.1]
      · rw [spelling, ValueSpelling.value, hfirst.2, hlast.2]
  | .set [], h => exact absurd h.1 (by decide)
  | .set [_], h => exact absurd h.1 (by simp)
  | .set (first :: second :: more), h =>
      have hread := fun l hl => Literal.spelling_literal (h.2 l hl)
      have hliterals : (spelling (.set (first :: second :: more))).literals =
          (first :: second :: more).map Literal.spelling := rfl
      refine ⟨?_, ?_, ?_, ?_⟩
      · rw [chars, List.map_cons, intercalate_cons_eq_flatMap]
        simp [spelling, ValueSpelling.chars, Literal.chars_spelling, List.flatMap_map]
      · rw [ValueSpelling.WellFormed, hliterals, List.forall_mem_map]
        exact fun l _ => l.spelling_wellFormed
      · rw [ValueSpelling.Representable, hliterals, List.forall_mem_map]
        exact fun l hl => (hread l hl).1
      · have hmap : (first :: second :: more).map (fun l => l.spelling.literal) =
            first :: second :: more :=
          (List.map_congr_left fun l hl => (hread l hl).2).trans (List.map_id' _)
        simp only [List.map_cons] at hmap
        simpa [spelling, ValueSpelling.value, List.map_map, Function.comp_def] using hmap

end Value

def Grammar.Steps.ofNames : List String → Steps
  | [] => .done
  | name :: rest => .segment name.toList (ofNames rest)

namespace Grammar.Steps

variable {names : List String}

private theorem chars_ofNames (names : List String) :
    (ofNames names).chars = names.flatMap fun name => '.' :: name.toList := by
  induction names with
  | nil => rfl
  | cons name rest ih => rw [ofNames, chars, ih, List.flatMap_cons, List.cons_append]

private theorem ofNames_wellFormed (operators : OperatorTable)
    (h : ∀ name ∈ names, IsRun isNameChar name.toList) : (ofNames names).WellFormed operators := by
  induction names with
  | nil => trivial
  | cons name rest ih =>
      rw [List.forall_mem_cons] at h
      exact ⟨h.1, ih h.2⟩

private theorem ofNames_representable (names : List String) : (ofNames names).Representable := by
  induction names with
  | nil => trivial
  | cons name rest ih => exact ih

private theorem depth_ofNames (names : List String) : (ofNames names).depth = 0 := by
  induction names with
  | nil => rfl
  | cons name rest ih => exact ih

private theorem walk_ofNames (names path : List String) (span : Span) (offset : Nat) :
    Step.walk ((ofNames names).steps offset) (.leaf ⟨path, none, span⟩) =
      .ok (.leaf ⟨path ++ names, none, span⟩) := by
  induction names generalizing path offset with
  | nil => rw [List.append_nil]; rfl
  | cons name rest ih =>
      have hextend : (Formula.leaf (⟨path, none, span⟩ : Leaf)).substitute
          (Leaf.extend ⟨String.ofList name.toList,
            ⟨offset + byteLength ['.'], offset + byteLength ['.'] + byteLength name.toList⟩⟩) =
          .ok (.leaf ⟨path ++ [name], none, span⟩) := by
        simp [Formula.substitute, Leaf.extend, Leaf.checkOpen]
      simp only [ofNames, steps, Step.walk, hextend, ih, List.append_assoc, List.singleton_append]

private theorem expand_ofNames (head : Spanned String) (names : List String) (e : Ending)
    (span : Span) (offset : Nat) :
    (Term.path head ((ofNames names).steps offset) (some e) span).expand =
      .ok (.leaf ⟨head.value :: names, e.1, e.2, span⟩) := by
  simp only [Term.expand, Term.leaves, walk_ofNames, Formula.substitute, Leaf.close, Leaf.checkOpen,
    Formula.traverse, Leaf.finish, List.singleton_append]

end Grammar.Steps

namespace OperatorTable

variable {operators : OperatorTable}

/-- A token that a comparison takes is bound, and with the value it gives back the operator. -/
private theorem Lawful.resolve_takes (h : operators.Lawful) {c : Comparison} {token : String}
    (hrange : c.operator.isRangeOnly = true ↔ c.value.isRange = true)
    (htoken : c.Takes operators token) (place span : Span) :
    operators.has token = true ∧
      operators.resolve ⟨c.path, ⟨token, place⟩, c.value, span⟩ = .ok c := by
  obtain ⟨path, operator, value⟩ := c
  have hequal := h.basic "=" .equal rfl
  have hnotEqual := h.basic "!=" .notEqual rfl
  -- Two operators stand for ranges; every other has its token in the table.
  have hother : operator.isRangeOnly = false → operators.find? token = some operator →
      operators.has token = true ∧
        operators.resolve ⟨path, ⟨token, place⟩, value, span⟩ = .ok ⟨path, operator, value⟩ := by
    intro hwritten hbound
    have hvalue : value.isRange = false := by
      rw [← Bool.not_eq_true, ← hrange, hwritten]
      decide
    simp [Table.has, resolve, hbound, hvalue]
  cases operator with
  | between =>
      have hvalue : value.isRange = true := hrange.mp rfl
      obtain rfl : token = "=" := htoken
      simp [Table.has, resolve, hequal, hvalue, Operator.forRange?]
  | notBetween =>
      have hvalue : value.isRange = true := hrange.mp rfl
      obtain rfl : token = "!=" := htoken
      simp [Table.has, resolve, hnotEqual, hvalue, Operator.forRange?]
  | equal | notEqual | less | lessOrEqual | greater | greaterOrEqual | like =>
      exact hother rfl htoken

end OperatorTable

namespace Grammar

variable {operators : OperatorTable} {level : Level} {ι : Type}

/-- A part without brackets that has a text and a meaning. -/
structure Part.Writes (operators : OperatorTable) (part : Part level) (text : List Char)
    (meaning : List (List Comparison)) : Prop where
  chars : part.chars = text
  well : part.WellFormed operators
  number : part.Representable
  depth : part.depth = 0
  means : ∀ offset, (part.term offset).Means operators meaning

/-- A chain without brackets that has a text, and a meaning for each part. -/
structure Chain.Writes (operators : OperatorTable) (chain : Chain level) (text : List Char)
    (meanings : List (List (List Comparison))) : Prop where
  chars : chain.chars = text
  well : chain.WellFormed operators
  number : chain.Representable
  depth : chain.depth = 0
  means : ∀ offset, List.Forall₂ (Term.Means operators) (chain.terms offset) meanings

/-- Parts with single spaces around the connectives between them. -/
def Chain.spaced (part : ι → Part level) (first : ι) : List ι → Chain level
  | [] => .last (part first)
  | second :: more => .cons (part first) [' '] [' '] (spaced part second more)

private theorem Chain.spaced_writes {part : ι → Part level} {text : ι → List Char}
    {meaning : ι → List (List Comparison)} {first : ι} {more : List ι}
    (h : ∀ i ∈ first :: more, (part i).Writes operators (text i) (meaning i)) :
    (spaced part first more).Writes operators
      ((' ' :: level.letters ++ [' ']).intercalate ((first :: more).map text))
      ((first :: more).map meaning) := by
  induction more generalizing first with
  | nil =>
      rw [List.forall_mem_singleton] at h
      refine ⟨?_, h.well, h.number, h.depth, fun offset => .cons (h.means offset) .nil⟩
      simpa [spaced, Chain.chars] using h.chars
  | cons second more ih =>
      rw [List.forall_mem_cons] at h
      have hfirst := h.1
      have hmore := ih h.2
      refine ⟨?_, ⟨hfirst.well, by decide, by decide, hmore.well⟩, ⟨hfirst.number, hmore.number⟩,
        ?_, fun offset => .cons (hfirst.means offset) (hmore.means _)⟩
      · rw [spaced, Chain.chars, hmore.chars, hfirst.chars]
        simp
      · rw [spaced, Chain.depth, hfirst.depth, hmore.depth]
        rfl

private theorem Chain.Writes.conjunction {chain : Chain .all} {text : List Char}
    {meanings : List (List (List Comparison))} (h : chain.Writes operators text meanings) :
    (Part.conjunction chain).Writes operators text (cross meanings) :=
  ⟨h.chars, h.well, h.number, h.depth, fun offset => collapse_means .all (h.means offset)⟩

private theorem Chain.Writes.parse {settings : FilterSettings} {chain : Chain .any}
    {text : List Char} {meanings : List (List (List Comparison))}
    (h : chain.Writes settings.operators text meanings) {source : String}
    (hsource : source.toList = text) : Filter.parse source settings = .ok ⟨meanings.flatten⟩ := by
  have hderives : Derivation.Derives settings.operators source ⟨[], chain, []⟩ := by
    refine ⟨⟨rfl, h.well, rfl⟩, ?_⟩
    rw [Derivation.chars, h.chars, hsource]
    simp
  have hdepth : chain.depth ≤ settings.maxDepth := by
    rw [h.depth]
    exact Nat.zero_le _
  exact Filter.parse_eq_ok_of_derives hderives h.number hdepth (collapse_means .any (h.means _))

end Grammar

/-- The part of a conjunction a comparison is written as. -/
def Comparison.part (c : Comparison × String) : Part .all :=
  .path (c.1.path.headD "").toList (Steps.ofNames c.1.path.tail)
    (some ⟨c.2.toList, c.1.value.spelling⟩)

private theorem Comparison.part_writes {operators : OperatorTable} (hlaws : operators.Lawful)
    {c : Comparison} {token : String} (h : c.Writable operators) (htoken : c.Takes operators token) :
    (part (c, token)).Writes operators (c.text token).toList [[c]] := by
  obtain ⟨head, names, hpath⟩ := List.exists_cons_of_ne_nil h.path_ne_nil
  have hvalue := Value.spells_spelling h.value
  have hresolve := hlaws.resolve_takes h.range htoken
  have hbound := (hresolve (.point 0) (.point 0)).1
  have hrun := hlaws.tokens token (Table.has_eq_true_iff.mp hbound)
  have hnames := h.names
  rw [hpath, List.forall_mem_cons] at hnames
  have hpart : part (c, token) = .path head.toList (Steps.ofNames names)
      (some ⟨token.toList, c.value.spelling⟩) := by
    simp [part, hpath]
  rw [hpart]
  refine ⟨?_, ?_, ?_, Steps.depth_ofNames names, fun offset => ?_⟩
  · simp [Part.chars, EndingSpelling.chars, Steps.chars_ofNames, hvalue.chars, text, pathText, hpath,
      Value.display, String.toList_intercalate, intercalate_cons_eq_flatMap, List.flatMap_map]
  · refine ⟨hnames.1, Steps.ofNames_wellFormed operators hnames.2, ?_⟩
    rintro e ⟨⟩
    exact ⟨hrun, by simpa using hbound, hvalue.well⟩
  · refine ⟨Steps.ofNames_representable names, ?_⟩
    rintro e ⟨⟩
    exact hvalue.number
  · refine ⟨_, .leaf c, Steps.expand_ofNames _ _ _ _ _, ?_, rfl⟩
    simp only [EndingSpelling.ending, String.ofList_toList, hvalue.value, Formula.map_leaf, ← hpath,
      hresolve]

private theorem Comparison.Writable.exists_takes {operators : OperatorTable} {c : Comparison}
    (h : c.Writable operators) : ∃ token, c.Takes operators token := by
  obtain ⟨path, operator, value⟩ := c
  cases operator with
  | between => exact ⟨"=", rfl⟩
  | notBetween => exact ⟨"!=", rfl⟩
  | equal | notEqual | less | lessOrEqual | greater | greaterOrEqual | like => exact h.bound rfl

namespace Filter

private theorem cross_singletons {α β : Type} (f : α → β) (items : List α) :
    cross (items.map fun a => [[f a]]) = [items.map f] := by
  induction items with
  | nil => rfl
  | cons a rest ih => simp [cross, ih]

private theorem exists_heads {α : Type} {lists : List (List α)} (h : ∀ list ∈ lists, list ≠ []) :
    ∃ heads : List (α × List α), lists = heads.map fun p => p.1 :: p.2 := by
  induction lists with
  | nil => exact ⟨[], rfl⟩
  | cons list rest ih =>
      rw [List.forall_mem_cons] at h
      obtain ⟨heads, rfl⟩ := ih h.2
      obtain ⟨first, more, rfl⟩ := List.exists_cons_of_ne_nil h.1
      exact ⟨(first, more) :: heads, rfl⟩

/-- Comparisons with their tokens, none of the lists empty, are read back. -/
private theorem parse_text_of_writable {settings : FilterSettings}
    (hlaws : settings.operators.Lawful) {choice : List (List (Comparison × String))}
    (hne : choice ≠ []) (hparts : ∀ part ∈ choice, part ≠ [])
    (hcomparisons : ∀ part ∈ choice, ∀ c ∈ part,
      c.1.Writable settings.operators ∧ c.1.Takes settings.operators c.2) :
    parse (text choice) settings = .ok ⟨choice.map (List.map Prod.fst)⟩ := by
  obtain ⟨heads, rfl⟩ := exists_heads hparts
  rw [List.forall_mem_map] at hcomparisons
  have hne' : heads ≠ [] := fun hnil => hne (by rw [hnil, List.map_nil])
  obtain ⟨first, more, rfl⟩ := List.exists_cons_of_ne_nil hne'
  have hconjunctions := fun p hp => (Chain.spaced_writes (fun c hc =>
    Comparison.part_writes hlaws (hcomparisons p hp c hc).1 (hcomparisons p hp c hc).2)).conjunction
  have hwrites := Chain.spaced_writes hconjunctions
  have htext : (text ((first :: more).map fun p => p.1 :: p.2)).toList =
      (' ' :: Level.any.letters ++ [' ']).intercalate ((first :: more).map fun p =>
        (' ' :: Level.all.letters ++ [' ']).intercalate
          ((p.1 :: p.2).map fun c => (c.1.text c.2).toList)) := by
    simp only [text, String.toList_intercalate, List.map_map, Function.comp_def]
    rfl
  rw [hwrites.parse htext]
  simp only [cross_singletons, ← List.flatMap_def, List.map_map, Function.comp_def,
    ← List.map_eq_flatMap]

/-- What is written of a filter is read back as the filter, whatever tokens of its operators are chosen,
and there are such tokens. -/
theorem parse_text {settings : FilterSettings} (hs : settings.Reachable) {filter : Filter}
    (hfilter : filter.Writable settings.operators) :
    (∃ choice, filter.Chooses settings.operators choice) ∧
    ∀ choice, filter.Chooses settings.operators choice →
      parse (text choice) settings = .ok filter := by
  constructor
  · have htoken : ∀ c : Comparison, ∃ token, c.Writable settings.operators →
        c.Takes settings.operators token := by
      intro c
      by_cases hc : c.Writable settings.operators
      · obtain ⟨token, htoken⟩ := hc.exists_takes
        exact ⟨token, fun _ => htoken⟩
      · exact ⟨"", fun h => absurd h hc⟩
    choose token htoken using htoken
    refine ⟨filter.alternatives.map (List.map fun c => (c, token c)), ?_, ?_⟩
    · simp [List.map_map, Function.comp_def]
    · simp only [List.forall_mem_map]
      exact fun part hpart c hc => htoken c (hfilter.comparisons part hpart c hc)
  · rintro choice ⟨hcomparisons, htokens⟩
    obtain ⟨alternatives⟩ := filter
    obtain rfl : choice.map (List.map Prod.fst) = alternatives := hcomparisons
    obtain ⟨hne, hparts, hwritable⟩ := hfilter
    simp only [List.forall_mem_map] at hparts hwritable
    refine parse_text_of_writable hs.lawful (by simpa using hne) (fun part hpart => ?_)
      fun part hpart c hc => ⟨hwritable part hpart c hc, htokens part hpart c hc⟩
    simpa using hparts part hpart

/-- Two alternatives with a string, a range and a set, and a token for every comparison. -/
def mixedChoice : List (List (Comparison × String)) :=
  [[(⟨["a", "b"], .like, .single (.text "(x\" OR \\\n")⟩, "~"),
    (⟨["c"], .between, .range (.integer 1) (.decimal ⟨false, 250, 2, by decide, by decide⟩)⟩, "=")],
   [(⟨["d"], .notEqual,
      .set [.decimal ⟨true, 9223372036854775809, 0, by decide, by decide⟩, .null]⟩, "!=")]]

theorem parse_text_mixedChoice :
    FilterSettings.Reachable ⟨OperatorTable.initial.put "~" .like, 0⟩ ∧
    parse "a.b~\"(x\\\" OR \\\\\n\" AND c=1..2.50 OR d!=-9223372036854775809,null"
        ⟨OperatorTable.initial.put "~" .like, 0⟩ =
      .ok ⟨mixedChoice.map (List.map Prod.fst)⟩ := by
  have hbind : FilterSettings.initial.bind "~" .like =
      .ok ⟨OperatorTable.initial.put "~" .like, defaultMaxDepth⟩ := by decide
  have hreachable : FilterSettings.Reachable ⟨OperatorTable.initial.put "~" .like, 0⟩ :=
    (FilterSettings.Reachable.bind .initial hbind).withMaxDepth 0
  have hwritable : Filter.Writable (OperatorTable.initial.put "~" .like)
      ⟨mixedChoice.map (List.map Prod.fst)⟩ := by
    refine ⟨by decide, by decide, ?_⟩
    simp only [mixedChoice, List.map_cons, List.map_nil, List.forall_mem_cons, List.not_mem_nil,
      false_implies, implies_true, and_true]
    refine ⟨⟨?_, ?_⟩, ?_⟩
    · exact ⟨by decide, by decide, by decide, fun _ => ⟨"~", rfl⟩, trivial⟩
    · refine ⟨by decide, by decide, by decide, fun h => absurd h (by decide), trivial, ?_⟩
      exact ⟨.inl (by decide), by decide⟩
    · refine ⟨by decide, by decide, by decide, fun _ => ⟨"!=", rfl⟩, by decide, ?_⟩
      simp only [List.forall_mem_cons, List.not_mem_nil, false_implies, implies_true, and_true]
      exact ⟨⟨.inr (by decide), by decide⟩, trivial⟩
  have hchooses : Filter.Chooses (OperatorTable.initial.put "~" .like)
      ⟨mixedChoice.map (List.map Prod.fst)⟩ mixedChoice := by
    refine ⟨rfl, ?_⟩
    simp only [mixedChoice, List.forall_mem_cons, List.not_mem_nil, false_implies, implies_true,
      and_true]
    exact ⟨⟨rfl, rfl⟩, rfl⟩
  have htext : text mixedChoice =
      "a.b~\"(x\\\" OR \\\\\n\" AND c=1..2.50 OR d!=-9223372036854775809,null" := by
    decide +kernel
  rw [← htext]
  exact ⟨hreachable, (parse_text hreachable hwritable).2 mixedChoice hchooses⟩

end Filter

end RequestQuery
