import RequestQuery.Proofs.Filter.Meaning
import RequestQuery.Proofs.Reading.Agreement

/-!
# The nesting limit of filters

The check of nesting knows nothing of the grammar, it counts brackets. Still the two agree: a text that
passes never takes the grammar into more groups than the limit allows, whether the text is a filter or
not, and the text of a derivation is refused exactly if the derivation is too deep.
-/

namespace RequestQuery

namespace Parser

open Nesting

/-- An expression of which `deeper` reads what `levels` levels do not hold. -/
def expressionOver (operators : OperatorTable) (deeper : Parser Term) : Nat → Parser Term
  | 0 => deeper
  | levels + 1 => expressionLevel operators (expressionOver operators deeper levels)

def filterTextOver (operators : OperatorTable) (deeper : Parser Term) (levels : Nat) :
    Parser Term := do
  separators
  let term ← expressionOver operators deeper levels
  separators
  labelled "`AND`, `OR` or end of input" atEnd
  pure term

theorem expression_add (operators : OperatorTable) (fuel levels : Nat) :
    expression operators (fuel + levels) =
      expressionOver operators (expression operators fuel) levels := by
  induction levels with
  | zero => rfl
  | succ levels ih =>
      rw [expressionOver, ← ih]
      rfl

theorem filterText_add (operators : OperatorTable) (fuel levels : Nat) :
    filterText operators (fuel + levels) =
      filterTextOver operators (expression operators fuel) levels := by
  unfold filterText filterTextOver
  rw [expression_add]

section Levels

variable {operators : OperatorTable} {limit depth : Nat} {inner inner' : Parser Term}

private theorem agree_separators :
    Agree (Within limit depth) (Within limit depth) separators separators := by
  apply agree_of_balanced
  intro cursor value next h
  obtain ⟨taken, hpasses, hall⟩ := Grammar.separators_eq_done h
  exact ⟨taken, Grammar.separators_balanced hall 0, hpasses⟩

private theorem agree_connective (level : Grammar.Level) :
    Agree (Within limit depth) (Within limit depth) (connective level.letters)
      (connective level.letters) := by
  apply agree_of_balanced
  intro cursor value next h
  obtain ⟨first, second, hfirst, hsecond, hpasses⟩ := Grammar.connective_eq_done h
  have hletters : Balanced 0 level.letters := .of_all (by cases level <;> decide) 0
  exact ⟨_, (Grammar.separators_balanced hfirst.2 0).append
    (hletters.append (Grammar.separators_balanced hsecond.2 0)), hpasses⟩

private theorem agree_name : Agree (Within limit depth) (Within limit depth) name name := by
  apply agree_of_balanced
  intro cursor value next h
  obtain ⟨text, htext, hpasses, -⟩ := Grammar.name_eq_done h
  exact ⟨text, Grammar.name_balanced htext 0, hpasses⟩

private theorem agree_ending :
    Agree (Within limit depth) (Within limit depth) (ending operators) (ending operators) := by
  apply agree_of_balanced
  intro cursor value next h
  obtain ⟨e, hwell, -, hpasses, -⟩ := Grammar.ending_eq_done h
  have hsome : ∀ e' ∈ some e, e'.WellFormed operators := by simpa using hwell
  exact ⟨e.chars, Grammar.ending_balanced hsome 0, hpasses⟩

/-- Brackets agree if what stands inside does one level deeper. At the limit no bracket is opened, so
there what stands inside does not matter. -/
private theorem agree_bracketed {opener closer : Char} (hopener : isOpener opener = true)
    (hcloser : isCloser closer = true) (label : String)
    (h : depth < limit → Agree (Within limit (depth + 1)) (Within limit (depth + 1)) inner inner') :
    Agree (Within limit depth) (Within limit depth) (bracketed opener closer label inner)
      (bracketed opener closer label inner') := by
  unfold bracketed
  apply (agree_opener hopener).bind
  intro _ cursor hcursor
  have hinner := h hcursor.1
  have hinside : Agree (Within limit (depth + 1)) (Within limit depth)
      (do separators; let term ← inner; separators; labelled label (char closer); pure term)
      (do separators; let term ← inner'; separators; labelled label (char closer); pure term) := by
    apply agree_separators.bind
    intro _
    apply hinner.bind
    intro term
    apply agree_separators.bind
    intro _
    apply ((agree_closer hcloser).labelled label).bind
    intro _
    exact agree_pure term
  exact hinside.commit cursor hcursor.2

private theorem agree_pathStep
    (h : depth < limit → Agree (Within limit (depth + 1)) (Within limit (depth + 1)) inner inner') :
    Agree (Within limit depth) (Within limit depth) (pathStep inner) (pathStep inner') := by
  apply Agree.either
  · apply (agree_plain (by decide)).bind
    intro _
    apply agree_name.commit.bind
    intro segment
    exact agree_pure _
  · apply (agree_bracketed rfl rfl _ h).bind
    intro term
    exact agree_pure _

private theorem agree_term
    (h : depth < limit → Agree (Within limit (depth + 1)) (Within limit (depth + 1)) inner inner') :
    Agree (Within limit depth) (Within limit depth) (term operators inner)
      (term operators inner') := by
  have hparts : Agree (Within limit depth) (Within limit depth) (pathParts operators inner)
      (pathParts operators inner') := by
    apply agree_name.bind
    intro head
    apply (agree_pathStep h).many.bind
    intro steps
    apply (agree_ending.optional fun _ h => h).bind
    intro close
    exact agree_pure _
  apply (agree_bracketed rfl rfl _ h).either
  apply hparts.spanned.bind
  intro parts
  exact agree_pure _

private theorem agree_joined (level : Grammar.Level)
    (h : Agree (Within limit depth) (Within limit depth) inner inner') :
    Agree (Within limit depth) (Within limit depth) (joined level.letters level.wrap inner)
      (joined level.letters level.wrap inner') := by
  apply h.bind
  intro first
  apply Agree.bind
  · apply Agree.many
    apply (agree_connective level).bind
    intro _
    exact h.commit
  · intro more
    exact agree_pure _

theorem agree_expressionOver (deeper deeper' : Parser Term) (levels : Nat) :
    ∀ depth, depth + levels = limit →
      Agree (Within limit depth) (Within limit depth)
        (expressionOver operators deeper (levels + 1))
        (expressionOver operators deeper' (levels + 1)) := by
  induction levels with
  | zero =>
      intro depth hdepth
      have hterm : Agree (Within limit depth) (Within limit depth) (term operators deeper)
          (term operators deeper') := agree_term fun h => by omega
      exact agree_joined .any (agree_joined .all hterm)
  | succ levels ih =>
      intro depth hdepth
      have hterm : Agree (Within limit depth) (Within limit depth)
          (term operators (expressionOver operators deeper (levels + 1)))
          (term operators (expressionOver operators deeper' (levels + 1))) :=
        agree_term fun _ => ih (depth + 1) (by omega)
      exact agree_joined .any (agree_joined .all hterm)

theorem filterTextOver_eq {source : String} (h : Nesting.check source limit = .ok ())
    (deeper deeper' : Parser Term) :
    filterTextOver operators deeper (limit + 1) (.start source) =
      filterTextOver operators deeper' (limit + 1) (.start source) := by
  have hagree : Agree (Within limit 0) (Within limit 0)
      (filterTextOver operators deeper (limit + 1))
      (filterTextOver operators deeper' (limit + 1)) := by
    apply agree_separators.bind
    intro _
    apply (agree_expressionOver deeper deeper' limit 0 (by omega)).bind
    intro term
    apply agree_separators.bind
    intro _
    apply (agree_atEnd.labelled _).bind
    intro _
    exact agree_pure term
  exact (hagree _ (within_start.mpr h)).1

theorem filterText_eq {source : String} (h : Nesting.check source limit = .ok ()) {fuel : Nat}
    (hfuel : limit + 1 ≤ fuel) :
    filterText operators fuel (.start source) = filterText operators (limit + 1) (.start source) := by
  obtain ⟨more, rfl⟩ := Nat.exists_eq_add_of_le' hfuel
  have hleast := filterText_add operators 0 (limit + 1)
  rw [Nat.zero_add] at hleast
  rw [filterText_add, hleast]
  exact filterTextOver_eq h _ _

end Levels

end Parser

namespace Grammar

/-- An opening bracket and how many brackets stand around it. -/
structure Opener where
  offset : Nat
  around : Nat
  deriving DecidableEq, Repr

mutual
/-- The openers of a chain from left to right, when its text starts at byte `offset` and `depth`
brackets stand around it. -/
def Chain.openers {level : Level} : Chain level → Nat → Nat → List Opener
  | .last part, offset, depth => part.openers offset depth
  | .cons part before after rest, offset, depth =>
      part.openers offset depth ++
        rest.openers (offset + byteLength (part.chars ++ (before ++ (level.letters ++ after)))) depth

def Part.openers {level : Level} : Part level → Nat → Nat → List Opener
  | .conjunction chain, offset, depth => chain.openers offset depth
  | .parentheses before inner _, offset, depth =>
      ⟨offset, depth⟩ :: inner.openers (offset + byteLength ('(' :: before)) (depth + 1)
  | .path head steps _, offset, depth => steps.openers (offset + byteLength head) depth

def Steps.openers : Steps → Nat → Nat → List Opener
  | .done, _, _ => []
  | .segment name rest, offset, depth => rest.openers (offset + byteLength ('.' :: name)) depth
  | .group before inner after rest, offset, depth =>
      (⟨offset, depth⟩ :: inner.openers (offset + byteLength ('[' :: before)) (depth + 1)) ++
        rest.openers (offset + byteLength ('[' :: (before ++ (inner.chars ++ (after ++ [']']))))) depth
end

/-- The first opener that has `limit` brackets around it. -/
def firstPast (limit : Nat) (openers : List Opener) : Option Opener :=
  openers.find? fun opener => limit ≤ opener.around

theorem firstPast_append (limit : Nat) (left right : List Opener) :
    firstPast limit (left ++ right) = (firstPast limit left).or (firstPast limit right) :=
  List.find?_append

section Scan

open Nesting

variable {operators : OperatorTable} {limit : Nat}

/-- A scan from `depth` open brackets finds the first of some openers that is past the limit, or else
it goes on behind the text. -/
def Finds (limit depth offset : Nat) (text : List Char) (openers : List Opener) : Prop :=
  ∀ rest, firstTooDeep limit .outside depth offset (text ++ rest) =
    ((firstPast limit openers).map Opener.offset).or
      (firstTooDeep limit .outside depth (offset + byteLength text) rest)

private theorem Finds.append {depth offset : Nat} {first second : List Char}
    {openers openers' : List Opener} (h : Finds limit depth offset first openers)
    (h' : Finds limit depth (offset + byteLength first) second openers') :
    Finds limit depth offset (first ++ second) (openers ++ openers') := by
  intro rest
  rw [List.append_assoc, h, h', firstPast_append, byteLength_append, Nat.add_assoc]
  cases firstPast limit openers <;> rfl

private theorem finds_balanced {depth : Nat} {text : List Char} (offset : Nat) (h : Balanced 0 text)
    (hdepth : depth ≤ limit) : Finds limit depth offset text [] := by
  intro rest
  exact firstTooDeep_balanced h hdepth rest

private theorem firstPast_cons_inside {depth offset : Nat} (openers : List Opener)
    (h : depth < limit) :
    firstPast limit (⟨offset, depth⟩ :: openers) = firstPast limit openers := by
  simp [firstPast, h]

private theorem firstPast_cons_past {depth offset : Nat} (openers : List Opener)
    (h : ¬depth < limit) :
    firstPast limit (⟨offset, depth⟩ :: openers) = some ⟨offset, depth⟩ := by
  have hle : limit ≤ depth := by omega
  simp [firstPast, hle]

private theorem finds_bracketed {depth offset : Nat} {opener closer : Char}
    {before text after : List Char} {openers : List Opener} (hopener : isOpener opener = true)
    (hcloser : isCloser closer = true) (hbefore : before.all isSeparator = true)
    (hafter : after.all isSeparator = true)
    (h : depth < limit →
      Finds limit (depth + 1) (offset + byteLength (opener :: before)) text openers) :
    Finds limit depth offset (opener :: (before ++ (text ++ (after ++ [closer]))))
      (⟨offset, depth⟩ :: openers) := by
  intro rest
  by_cases hdepth : depth < limit
  · have hfront : Finds limit (depth + 1) (offset + opener.utf8Size) before [] :=
      finds_balanced _ (separators_balanced hbefore 0) hdepth
    have htext : Finds limit (depth + 1) (offset + opener.utf8Size + byteLength before) text
        openers := by
      simpa [Nat.add_assoc] using h hdepth
    have hback := finds_balanced (offset + opener.utf8Size + byteLength (before ++ text))
      (separators_balanced hafter 0) hdepth
    have hinside := ((hfront.append htext).append hback) (closer :: rest)
    simp only [List.append_assoc, List.nil_append, List.append_nil] at hinside
    simp only [List.cons_append, List.append_assoc, List.nil_append]
    rw [firstPast_cons_inside openers hdepth, firstTooDeep_opener hopener hdepth, hinside,
      firstTooDeep_closer hcloser]
    simp [Nat.add_assoc]
  · rw [firstPast_cons_past openers hdepth, List.cons_append,
      firstTooDeep_opener_past hopener hdepth]
    rfl

mutual
theorem Chain.finds {level : Level} : ∀ (chain : Chain level), chain.WellFormed operators →
    ∀ depth offset, depth ≤ limit →
      Finds limit depth offset chain.chars (chain.openers offset depth)
  | .last part, hwell, depth, offset, hdepth => part.finds hwell depth offset hdepth
  | .cons part before after more, hwell, depth, offset, hdepth => by
      obtain ⟨hpart, hbefore, hafter, hmore⟩ := hwell
      have hletters : Balanced 0 level.letters := .of_all (by cases level <;> decide) 0
      have hjoint : Balanced 0 (before ++ (level.letters ++ after)) :=
        (separators_balanced hbefore.2 0).append (hletters.append (separators_balanced hafter.2 0))
      have hfront := (part.finds hpart depth offset hdepth).append (finds_balanced _ hjoint hdepth)
      have hfinds := hfront.append (more.finds hmore depth _ hdepth)
      simpa [Chain.chars, Chain.openers] using hfinds

theorem Part.finds {level : Level} : ∀ (part : Part level), part.WellFormed operators →
    ∀ depth offset, depth ≤ limit → Finds limit depth offset part.chars (part.openers offset depth)
  | .conjunction chain, hwell, depth, offset, hdepth => chain.finds hwell depth offset hdepth
  | .parentheses before inner after, hwell, depth, offset, hdepth => by
      obtain ⟨hbefore, hinner, hafter⟩ := hwell
      apply finds_bracketed rfl rfl hbefore hafter
      intro hlt
      exact inner.finds hinner (depth + 1) _ hlt
  | .path head steps ending, hwell, depth, offset, hdepth => by
      obtain ⟨hhead, hsteps, hending⟩ := hwell
      have hname := finds_balanced offset (name_balanced hhead 0) hdepth
      have hfront := hname.append (steps.finds hsteps depth _ hdepth)
      have hfinds := hfront.append (finds_balanced _ (ending_balanced hending 0) hdepth)
      simpa [Part.chars, Part.openers] using hfinds

theorem Steps.finds : ∀ (steps : Steps), steps.WellFormed operators →
    ∀ depth offset, depth ≤ limit → Finds limit depth offset steps.chars (steps.openers offset depth)
  | .done, _, depth, offset, hdepth => finds_balanced offset (.nil 0) hdepth
  | .segment name more, hwell, depth, offset, hdepth => by
      have hpoint : Balanced 0 ['.'] := .plain 0 (by decide)
      have hfront := finds_balanced offset (hpoint.append (name_balanced hwell.1 0)) hdepth
      have hfinds := hfront.append (more.finds hwell.2 depth _ hdepth)
      simpa [Steps.chars, Steps.openers] using hfinds
  | .group before inner after more, hwell, depth, offset, hdepth => by
      obtain ⟨hbefore, hinner, hafter, hmore⟩ := hwell
      have hgroup : Finds limit depth offset
          ('[' :: (before ++ (inner.chars ++ (after ++ [']']))))
          (⟨offset, depth⟩ :: inner.openers (offset + byteLength ('[' :: before)) (depth + 1)) := by
        apply finds_bracketed rfl rfl hbefore hafter
        intro hlt
        exact inner.finds hinner (depth + 1) _ hlt
      have hfinds := hgroup.append (more.finds hmore depth _ hdepth)
      simpa [Steps.chars, Steps.openers] using hfinds
end

private theorem firstPast_cons_eq_none {depth offset d : Nat} {openers : List Opener}
    (h : depth < limit → (firstPast limit openers = none ↔ depth + 1 + d ≤ limit)) :
    firstPast limit (⟨offset, depth⟩ :: openers) = none ↔ depth + (d + 1) ≤ limit := by
  by_cases hlt : depth < limit
  · rw [firstPast_cons_inside openers hlt, h hlt]
    omega
  · rw [firstPast_cons_past openers hlt]
    simp only [reduceCtorEq, false_iff]
    omega

mutual
theorem Chain.firstPast_eq_none {level : Level} : ∀ (chain : Chain level) (depth offset : Nat),
    depth ≤ limit →
      (firstPast limit (chain.openers offset depth) = none ↔ depth + chain.depth ≤ limit)
  | .last part, depth, offset, hdepth => part.firstPast_eq_none depth offset hdepth
  | .cons part _ _ more, depth, offset, hdepth => by
      rw [Chain.openers, firstPast_append, Option.or_eq_none_iff, part.firstPast_eq_none _ _ hdepth,
        more.firstPast_eq_none _ _ hdepth, Chain.depth]
      omega

theorem Part.firstPast_eq_none {level : Level} : ∀ (part : Part level) (depth offset : Nat),
    depth ≤ limit →
      (firstPast limit (part.openers offset depth) = none ↔ depth + part.depth ≤ limit)
  | .conjunction chain, depth, offset, hdepth => chain.firstPast_eq_none depth offset hdepth
  | .parentheses _ inner _, depth, _, _ => by
      apply firstPast_cons_eq_none
      intro hlt
      exact inner.firstPast_eq_none (depth + 1) _ hlt
  | .path head steps _, depth, offset, hdepth =>
      steps.firstPast_eq_none depth (offset + byteLength head) hdepth

theorem Steps.firstPast_eq_none : ∀ (steps : Steps) (depth offset : Nat), depth ≤ limit →
    (firstPast limit (steps.openers offset depth) = none ↔ depth + steps.depth ≤ limit)
  | .done, depth, offset, hdepth => by simpa [Steps.openers, Steps.depth, firstPast] using hdepth
  | .segment name more, depth, offset, hdepth =>
      more.firstPast_eq_none depth (offset + byteLength ('.' :: name)) hdepth
  | .group before inner _ more, depth, offset, hdepth => by
      have hgroup : firstPast limit (⟨offset, depth⟩ ::
          inner.openers (offset + byteLength ('[' :: before)) (depth + 1)) = none ↔
          depth + (inner.depth + 1) ≤ limit := by
        apply firstPast_cons_eq_none
        intro hlt
        exact inner.firstPast_eq_none (depth + 1) _ hlt
      rw [Steps.openers, firstPast_append, Option.or_eq_none_iff, hgroup,
        more.firstPast_eq_none _ _ hdepth, Steps.depth]
      omega
end

end Scan

namespace Derivation

def depth (d : Derivation) : Nat := d.expression.depth

def openers (d : Derivation) : List Opener := d.expression.openers (byteLength d.before) 0

variable {operators : OperatorTable} {source : String} {d : Derivation} {limit : Nat}

theorem firstPast_eq_none (d : Derivation) (limit : Nat) :
    firstPast limit d.openers = none ↔ d.depth ≤ limit := by
  have h := d.expression.firstPast_eq_none 0 (byteLength d.before) (Nat.zero_le limit)
  rwa [Nat.zero_add] at h

/-- The check finds the first opener of the derivation that is past the limit. -/
theorem Derives.firstTooDeep (h : d.Derives operators source) :
    Nesting.firstTooDeep limit .outside 0 0 source.toList =
      (firstPast limit d.openers).map Opener.offset := by
  obtain ⟨hbefore, hexpression, hafter⟩ := h.well
  have hfront := finds_balanced 0 (separators_balanced hbefore 0) (Nat.zero_le limit)
  have hmiddle := hfront.append (d.expression.finds hexpression 0 _ (Nat.zero_le limit))
  have hback := hmiddle.append
    (finds_balanced _ (separators_balanced hafter 0) (Nat.zero_le limit))
  have hscan := hback []
  rw [List.append_nil, List.append_assoc, ← Derivation.chars, h.chars] at hscan
  rw [hscan]
  simp [openers, Nesting.firstTooDeep]

end Derivation

end Grammar

/-- The fuel a filter is read with is as good as one level for every bracket the limit allows. -/
theorem Term.parse_eq_limit {operators : OperatorTable} {source : String} {limit : Nat}
    (h : Nesting.check source limit = .ok ()) :
    Term.parse operators source = (Parser.filterText operators (limit + 1)).parse source := by
  have hread : Parser.filterText operators (source.length + 1) (.start source) =
      Parser.filterText operators (limit + 1) (.start source) := by
    by_cases hlength : limit ≤ source.length
    · exact Parser.filterText_eq h (by omega)
    · exact (Parser.filterText_eq (Nesting.check_length source) (by omega)).symm
  unfold Term.parse Parser.parse
  rw [hread]

private theorem Stop.code_fault (stop : Stop) : stop.fault.cause.code ≠ .nestingTooDeep := by
  unfold Stop.fault
  split
  · intro h; cases h
  · split
    · intro h; cases h
    · intro h; cases h

private theorem Parser.code_of_parse {α : Type} {p : Parser α} {source : String} {fault : Fault}
    (h : p.parse source = .error fault) : fault.cause.code ≠ .nestingTooDeep := by
  unfold Parser.parse at h
  split at h <;> cases h
  · exact Stop.code_fault _
  · exact Stop.code_fault _

private theorem Term.code_of_expand {operators : OperatorTable} {source : String} {term : Term}
    (hparse : Term.parse operators source = .ok term) {fault : Fault}
    (h : term.expand = .error fault) : fault.cause.code ≠ .nestingTooDeep := by
  rcases Term.fault_of_expand (Term.proper_of_parse hparse) h with ⟨-, hcode⟩ | ⟨-, hcode, -⟩
  · rw [hcode]; decide
  · rw [hcode]; decide

private theorem OperatorTable.code_of_resolve {operators : OperatorTable} {raw : RawComparison}
    {fault : Fault} (h : operators.resolve raw = .error fault) :
    fault.cause.code ≠ .nestingTooDeep := by
  unfold OperatorTable.resolve at h
  simp only at h
  split at h
  · cases h
    exact fun hcode => by cases hcode
  · split at h
    · split at h <;> cases h
      exact fun hcode => by cases hcode
    · cases h

namespace Filter

open Grammar

private theorem code_of_normalizeFault {operators : OperatorTable} {tree : Formula RawComparison}
    {fault : Fault} (h : normalizeFault operators tree = .error fault) :
    fault.cause.code ≠ .nestingTooDeep := by
  unfold normalizeFault at h
  split at h <;> cases h
  next htraverse =>
    have hrefusal := Formula.refusal_eq_some.mpr htraverse
    rw [Formula.refusal_traverse] at hrefusal
    obtain ⟨raw, -, hraw⟩ := List.exists_of_findSome?_eq_some hrefusal
    exact OperatorTable.code_of_resolve (Formula.refusal_eq_some.mp hraw)

/-- Past the check of nesting nothing is refused for its depth. -/
theorem code_of_parse {settings : FilterSettings} {source : String} {error : QueryError}
    (hcheck : Nesting.check source settings.maxDepth = .ok ())
    (h : parse source settings = .error error) : error.code ≠ .nestingTooDeep := by
  have hreport : ∀ {α : Type} {outcome : Except Fault α} {error : QueryError},
      (∀ fault, outcome = .error fault → fault.cause.code ≠ .nestingTooDeep) →
      report source outcome = .error error → error.code ≠ .nestingTooDeep := by
    intro α outcome error hfault herror
    cases outcome with
    | ok value => cases herror
    | error fault =>
        cases herror
        rw [Fault.code_toError]
        exact hfault fault rfl
  unfold parse at h
  split at h
  · exact hreport (fun _ => code_of_normalizeFault) h
  · next htree =>
    cases h
    refine hreport (fun fault hfault => ?_) htree
    unfold treeFault at hfault
    rw [hcheck] at hfault
    split at hfault
    · cases hfault; decide
    · simp only at hfault
      split at hfault
      · next hparse =>
        cases hfault
        exact Parser.code_of_parse hparse
      · next hparse => exact Term.code_of_expand hparse hfault

private theorem parse_too_deep {settings : FilterSettings} {source : String} {d : Derivation}
    (h : d.Derives settings.operators source) {opener : Opener}
    (hopener : firstPast settings.maxDepth d.openers = some opener) :
    parse source settings = .error (Fault.toError
      ⟨.nestedTooDeep settings.maxDepth, ⟨opener.offset, opener.offset + 1⟩⟩ source) := by
  have hcheck : Nesting.check source settings.maxDepth =
      .error ⟨.nestedTooDeep settings.maxDepth, ⟨opener.offset, opener.offset + 1⟩⟩ := by
    rw [Nesting.check, h.firstTooDeep, hopener]
    rfl
  have htree : treeFault settings source =
      .error ⟨.nestedTooDeep settings.maxDepth, ⟨opener.offset, opener.offset + 1⟩⟩ := by
    rw [treeFault, not_all_isBlank h, hcheck]
    rfl
  rw [parse, parseTree, htree]
  rfl

/-- A text that passes the check of nesting is read the same, as a filter or as an error, whatever
stands in the place of the grammar inside more groups than the limit allows; so one level more than
the limit is as good as any number of them. A text with a derivation is refused for its depth exactly
if the derivation is deeper than the limit, and then at its first opener past the limit. -/
theorem nesting_limit_bounds_levels (settings : FilterSettings) (source : String) :
    (Nesting.check source settings.maxDepth = .ok () →
      (∀ deeper deeper' : Parser Term,
        Parser.filterTextOver settings.operators deeper (settings.maxDepth + 1) (.start source) =
          Parser.filterTextOver settings.operators deeper' (settings.maxDepth + 1)
            (.start source)) ∧
      (∀ fuel, settings.maxDepth + 1 ≤ fuel →
        Parser.filterText settings.operators fuel (.start source) =
          Parser.filterText settings.operators (settings.maxDepth + 1) (.start source)) ∧
      Term.parse settings.operators source =
        (Parser.filterText settings.operators (settings.maxDepth + 1)).parse source) ∧
    ∀ d : Derivation, d.Derives settings.operators source →
      ((∃ error, parse source settings = .error error ∧ error.code = .nestingTooDeep) ↔
        settings.maxDepth < d.depth) ∧
      (settings.maxDepth < d.depth → ∃ opener,
        firstPast settings.maxDepth d.openers = some opener ∧
        parse source settings = .error (Fault.toError
          ⟨.nestedTooDeep settings.maxDepth, ⟨opener.offset, opener.offset + 1⟩⟩ source)) := by
  refine ⟨fun hcheck => ?_, fun d hderives => ?_⟩
  · refine ⟨fun deeper deeper' => Parser.filterTextOver_eq hcheck deeper deeper', ?_, ?_⟩
    · intro fuel hfuel
      exact Parser.filterText_eq hcheck hfuel
    · exact Term.parse_eq_limit hcheck
  · have hopener : settings.maxDepth < d.depth →
        ∃ opener, firstPast settings.maxDepth d.openers = some opener := by
      intro hdepth
      rw [← Option.ne_none_iff_exists']
      intro hnone
      have hle := (d.firstPast_eq_none settings.maxDepth).mp hnone
      omega
    refine ⟨⟨?_, ?_⟩, ?_⟩
    · rintro ⟨error, hparse, hcode⟩
      by_contra hdepth
      have hcheck := hderives.check_eq_ok (Nat.le_of_not_lt hdepth)
      exact code_of_parse hcheck hparse hcode
    · intro hdepth
      obtain ⟨opener, hfirst⟩ := hopener hdepth
      exact ⟨_, parse_too_deep hderives hfirst, Fault.code_toError _ _⟩
    · intro hdepth
      obtain ⟨opener, hfirst⟩ := hopener hdepth
      exact ⟨opener, hfirst, parse_too_deep hderives hfirst⟩

/-- The derivation of `a[(b=null)]`. -/
def deepDerivation : Derivation where
  before := []
  expression := .last (.conjunction (.last (.path ['a']
    (.group []
      (.last (.conjunction (.last (.parentheses []
        (.last (.conjunction (.last (.path ['b'] .done (some ⟨['='], .single .null⟩))))) []))))
      [] .done) none)))
  after := []

theorem nesting_limit_bounds_levels_deep :
    deepDerivation.Derives OperatorTable.initial "a[(b=null)]" ∧ deepDerivation.depth = 2 ∧
    Nesting.check "a[(b=null)]" 2 = .ok () ∧
    Term.parse .initial "a[(b=null)]" = (Parser.filterText .initial 3).parse "a[(b=null)]" ∧
    parse "a[(b=null)]" (FilterSettings.initial.withMaxDepth 1) =
      .error (Fault.toError ⟨.nestedTooDeep 1, ⟨2, 3⟩⟩ "a[(b=null)]") := by
  have hderives : deepDerivation.Derives OperatorTable.initial "a[(b=null)]" :=
    ⟨by decide, by decide⟩
  have hcheck : Nesting.check "a[(b=null)]" 2 = .ok () := by decide
  have hwithin := nesting_limit_bounds_levels (FilterSettings.initial.withMaxDepth 2) "a[(b=null)]"
  have hpast := nesting_limit_bounds_levels (FilterSettings.initial.withMaxDepth 1) "a[(b=null)]"
  obtain ⟨opener, hopener, hparse⟩ := (hpast.2 deepDerivation hderives).2 (by decide)
  have hfirst : firstPast 1 deepDerivation.openers = some ⟨2, 1⟩ := by decide
  obtain rfl : opener = ⟨2, 1⟩ := by
    rw [FilterSettings.withMaxDepth] at hopener
    exact Option.some.inj (hopener.symm.trans hfirst)
  exact ⟨hderives, rfl, hcheck, (hwithin.1 hcheck).2.2, hparse⟩

end Filter

end RequestQuery
