import RequestQuery.Proofs.Filter.Completeness

/-!
# Numbers that cannot be kept

A number that cannot be kept ends the reading for good. In the text of a derivation reading comes as
far as the first such number from left to right, and the fault is reported for that one, whatever
stands around it and behind it.
-/

namespace RequestQuery

namespace Parser

variable {α β : Type} {p q : Parser α} {offset : Nat} {text rest : List Char} {a : α}
  {fault : NumberFault}

/-- In front of `text` reading fails for good, for a number that cannot be kept. -/
def Fails (p : Parser α) (offset : Nat) (text : List Char) (fault : NumberFault) : Prop :=
  ∃ stop, p ⟨offset, text⟩ = .failed stop ∧ stop.number = some fault

theorem Fails.bind (h : Fails p offset text fault) (f : α → Parser β) :
    Fails (p >>= f) offset text fault := by
  obtain ⟨stop, hstop, hnumber⟩ := h
  refine ⟨stop, ?_, hnumber⟩
  change Parser.bind p f _ = _
  rw [Parser.bind, hstop]

theorem Reads.bind_fails {f : α → Parser β} (hp : Reads p offset text rest a)
    (hf : Fails (f a) (offset + byteLength text) rest fault) :
    Fails (p >>= f) offset (text ++ rest) fault := by
  obtain ⟨stop, hstop, hnumber⟩ := hf
  refine ⟨stop, ?_, hnumber⟩
  change Parser.bind p f _ = _
  rw [Parser.bind, hp]
  exact hstop

theorem Fails.labelled (h : Fails p offset text fault) (label : String) :
    Fails (labelled label p) offset text fault := by
  obtain ⟨stop, hstop, hnumber⟩ := h
  exact ⟨{ stop with expected := stop.expected ++ [label] }, by rw [Parser.labelled, hstop], hnumber⟩

theorem Fails.commit (h : Fails p offset text fault) : Fails (commit p) offset text fault := by
  obtain ⟨stop, hstop, hnumber⟩ := h
  exact ⟨stop, by rw [Parser.commit, hstop], hnumber⟩

theorem Fails.optional (h : Fails p offset text fault) : Fails (optional p) offset text fault := by
  obtain ⟨stop, hstop, hnumber⟩ := h
  exact ⟨stop, by rw [Parser.optional, hstop], hnumber⟩

theorem Fails.spanned (h : Fails p offset text fault) : Fails (spanned p) offset text fault := by
  obtain ⟨stop, hstop, hnumber⟩ := h
  exact ⟨stop, by rw [Parser.spanned, hstop], hnumber⟩

/-- A failure is no reason to try another alternative. -/
theorem Fails.either (h : Fails p offset text fault) (q : Parser α) :
    Fails (either p q) offset text fault := by
  obtain ⟨stop, hstop, hnumber⟩ := h
  exact ⟨stop, by rw [Parser.either, hstop], hnumber⟩

theorem Refuses.either_fails (hp : Refuses p offset text) (hq : Fails q offset text fault) :
    Fails (Parser.either p q) offset text fault := by
  obtain ⟨stop, hstop⟩ := hp
  obtain ⟨stop', hstop', hnumber⟩ := hq
  exact ⟨stop', by rw [Parser.either, hstop, hstop'], hnumber⟩

/-- Texts that a parser reads one after another, and one in front of which it fails. -/
inductive FailsAmong (p : Parser α) (fault : NumberFault) : Nat → List Char → Prop where
  -- `many` does not try its parser in front of nothing.
  | now {offset : Nat} {text : List Char} (nonempty : text ≠ []) (fails : Fails p offset text fault) :
      FailsAmong p fault offset text
  | later {offset : Nat} {first text : List Char} {a : α} (reads : Reads p offset first text a)
      (progress : first ≠ []) (next : FailsAmong p fault (offset + byteLength first) text) :
      FailsAmong p fault offset (first ++ text)

private theorem FailsAmong.manyAlong (h : FailsAmong p fault offset text) (fuel : List Char)
    (hfuel : text.length ≤ fuel.length) : Fails (manyAlong p fuel) offset text fault := by
  induction h generalizing fuel with
  | now nonempty fails =>
      have hpositive := List.length_pos_iff.mpr nonempty
      obtain ⟨stop, hstop, hnumber⟩ := fails
      cases fuel with
      | nil =>
          rw [List.length_nil] at hfuel
          omega
      | cons c fuel => exact ⟨stop, by simp only [Parser.manyAlong, hstop], hnumber⟩
  | later reads progress next ih =>
      have hfirst := List.length_pos_iff.mpr progress
      rw [List.length_append] at hfuel
      cases fuel with
      | nil =>
          rw [List.length_nil] at hfuel
          omega
      | cons c fuel =>
          rw [List.length_cons] at hfuel
          obtain ⟨stop, hstop, hnumber⟩ := ih fuel (by omega)
          unfold Reads at reads
          exact ⟨stop, by simp only [Parser.manyAlong, reads, hstop], hnumber⟩

theorem FailsAmong.many (h : FailsAmong p fault offset text) : Fails (many p) offset text fault :=
  h.manyAlong text (Nat.le_refl _)

end Parser

namespace Grammar

open RequestQuery.Parser

/-- Why a literal cannot be kept as it is written. -/
def Spelling.fault? : Spelling → Option NumberFault
  | .number n =>
      match n.literal with
      | .ok _ => none
      | .error fault => some fault
  | .quoted _ | .boolean _ | .null => none

theorem Spelling.fault?_eq_none {s : Spelling} : s.fault? = none ↔ s.Representable := by
  cases s with
  | number n => cases h : n.literal <;> simp [Spelling.fault?, Spelling.Representable, h]
  | quoted cs | boolean b | null => simp [Spelling.fault?, Spelling.Representable]

/-- The fault of the first literal that has one. -/
def firstFault (literals : List Spelling) : Option NumberFault := literals.findSome? Spelling.fault?

theorem firstFault_eq_none {literals : List Spelling} :
    firstFault literals = none ↔ ∀ s ∈ literals, s.Representable := by
  simp only [firstFault, List.findSome?_eq_none_iff, Spelling.fault?_eq_none]

theorem firstFault_append (front rest : List Spelling) {fault : NumberFault}
    (h : firstFault (front ++ rest) = some fault) :
    firstFault front = some fault ∨ firstFault front = none ∧ firstFault rest = some fault := by
  unfold firstFault at h ⊢
  rw [List.findSome?_append] at h
  cases hfront : front.findSome? Spelling.fault? with
  | none => exact .inr ⟨rfl, by rwa [hfront] at h⟩
  | some found => exact .inl (by rwa [hfront] at h)

theorem firstFault_singleton (s : Spelling) : firstFault [s] = s.fault? := by
  unfold firstFault
  cases h : s.fault? <;> simp [h]

mutual
/-- The literals of a text from left to right. -/
def Chain.literals {level : Level} : Chain level → List Spelling
  | .last part => part.literals
  | .cons part _ _ rest => part.literals ++ rest.literals

def Part.literals {level : Level} : Part level → List Spelling
  | .conjunction chain => chain.literals
  | .parentheses _ inner _ => inner.literals
  | .path _ steps ending => steps.literals ++ ending.elim [] fun e => e.value.literals

def Steps.literals : Steps → List Spelling
  | .done => []
  | .segment _ rest => rest.literals
  | .group _ inner _ rest => inner.literals ++ rest.literals
end

mutual
theorem Chain.representable_iff {level : Level} : ∀ (chain : Chain level),
    chain.Representable ↔ ∀ s ∈ chain.literals, s.Representable
  | .last part => part.representable_iff
  | .cons part _ _ rest => by
      rw [Chain.Representable, Chain.literals, List.forall_mem_append, part.representable_iff,
        rest.representable_iff]

theorem Part.representable_iff {level : Level} : ∀ (part : Part level),
    part.Representable ↔ ∀ s ∈ part.literals, s.Representable
  | .conjunction chain => chain.representable_iff
  | .parentheses _ inner _ => inner.representable_iff
  | .path _ steps ending => by
      rw [Part.Representable, Part.literals, List.forall_mem_append, steps.representable_iff]
      cases ending <;> simp [ValueSpelling.Representable]

theorem Steps.representable_iff : ∀ (steps : Steps),
    steps.Representable ↔ ∀ s ∈ steps.literals, s.Representable
  | .done => by simp [Steps.Representable, Steps.literals]
  | .segment _ rest => rest.representable_iff
  | .group _ inner _ rest => by
      rw [Steps.Representable, Steps.literals, List.forall_mem_append, inner.representable_iff,
        rest.representable_iff]
end

theorem fails_literal {s : Spelling} (hs : s.WellFormed) {fault : NumberFault}
    (hfault : firstFault [s] = some fault) {rest : List Char} (hrest : ClosesLiteral rest)
    (offset : Nat) : Fails literal offset (s.chars ++ rest) fault := by
  rw [firstFault_singleton] at hfault
  cases s with
  | quoted cs | boolean b | null => cases hfault
  | number n =>
      have hnumeral := reads_numeral hs hrest offset
      have hnumber : Fails number offset (n.chars ++ rest) fault := by
        unfold Reads at hnumeral
        cases hliteral : n.literal with
        | ok meant =>
            simp only [Spelling.fault?, hliteral] at hfault
            cases hfault
        | error found =>
            simp only [Spelling.fault?, hliteral] at hfault
            refine ⟨⟨⟨offset, n.chars ++ rest⟩, [], some found⟩, ?_, hfault⟩
            simp only [number, hnumeral, hliteral]
      have hquote : (n.chars ++ rest).head? ≠ some '"' :=
        head?_ne_of_class (head_numeral hs rest) (by decide)
      exact ((refuses_string hquote offset).either_fails (hnumber.either keyword)).labelled _

private theorem fails_more {more : List Spelling} (hwell : ∀ s ∈ more, s.WellFormed)
    {fault : NumberFault} (hfault : firstFault more = some fault) {rest : List Char}
    (hrest : Ends rest) (offset : Nat) :
    FailsAmong (do char ','; commit literal) fault offset
      ((more.flatMap fun s => ',' :: s.chars) ++ rest) := by
  induction more generalizing offset with
  | nil => cases hfault
  | cons s more ih =>
      rw [List.forall_mem_cons] at hwell
      have hclose := closesLiteral_more more hrest
      rw [List.flatMap_cons, List.append_assoc]
      rcases firstFault_append [s] more hfault with hs | ⟨hs, hmore⟩
      · refine .now (by simp) ((reads_char ',' offset _).bind_fails ?_)
        exact (fails_literal hwell.1 hs hclose _).commit
      · rw [firstFault_singleton, Spelling.fault?_eq_none] at hs
        have hread := reads_literal hwell.1 hs hclose (offset + byteLength [','])
        exact .later ((reads_char ',' offset _).bind hread.commit) (by simp) (ih hwell.2 hmore _)

/-- The literals of a value are read one after another, up to the one that cannot be kept. -/
theorem fails_value {v : ValueSpelling} (hv : v.WellFormed) {fault : NumberFault}
    (hfault : firstFault v.literals = some fault) {rest : List Char} (hrest : Ends rest)
    (offset : Nat) : Fails value offset (v.chars ++ rest) fault := by
  cases v with
  | single s =>
      have hs : s.WellFormed := hv s (List.mem_singleton_self s)
      exact (fails_literal hs hfault hrest.closesLiteral offset).bind _
  | range first last =>
      have hfirst : first.WellFormed := hv first (List.mem_cons_self ..)
      have hlast : last.WellFormed := hv last (List.mem_cons_of_mem _ (List.mem_singleton_self last))
      have hclose := closesLiteral_points (last.chars ++ rest)
      have htext : (ValueSpelling.range first last).chars ++ rest =
          first.chars ++ (['.', '.'] ++ (last.chars ++ rest)) := by
        simp [ValueSpelling.chars]
      rw [htext]
      rcases firstFault_append [first] [last] hfault with hfound | ⟨hkept, hfound⟩
      · exact (fails_literal hfirst hfound hclose offset).bind _
      · rw [firstFault_singleton, Spelling.fault?_eq_none] at hkept
        refine (reads_literal hfirst hkept hclose offset).bind_fails (Fails.bind ?_ _)
        refine Fails.optional ((reads_word ['.', '.'] _ _).bind_fails ?_)
        exact (fails_literal hlast hfound hrest.closesLiteral _).commit
  | set first second more =>
      obtain ⟨hfirst, hmore⟩ := List.forall_mem_cons.mp hv
      have hclose := closesLiteral_more (second :: more) hrest
      have htext : (ValueSpelling.set first second more).chars ++ rest =
          first.chars ++ (((second :: more).flatMap fun s => ',' :: s.chars) ++ rest) := by
        simp [ValueSpelling.chars]
      rw [htext]
      rcases firstFault_append [first] (second :: more) hfault with hfound | ⟨hkept, hfound⟩
      · exact (fails_literal hfirst hfound hclose offset).bind _
      · rw [firstFault_singleton, Spelling.fault?_eq_none] at hkept
        refine (reads_literal hfirst hkept hclose offset).bind_fails ?_
        have hpoint : (((second :: more).flatMap fun s => ',' :: s.chars) ++ rest).head? ≠ some '.' := by
          simp
        have hnone := (refuses_range hpoint (offset + byteLength first.chars)).optional
        exact hnone.bind_fails ((fails_more hmore hfound hrest _).many.bind _)

theorem fails_ending {operators : OperatorTable} {e : EndingSpelling} (h : e.WellFormed operators)
    {fault : NumberFault} (hfault : firstFault e.value.literals = some fault) {rest : List Char}
    (hrest : Ends rest) (offset : Nat) :
    Fails (ending operators) offset (e.chars ++ rest) fault := by
  rw [EndingSpelling.chars, List.append_assoc]
  exact (reads_operatorToken h rest offset).spanned.bind_fails
    ((fails_value h.2.2 hfault hrest _).commit.bind _)

theorem fails_bracketed {opener closer : Char} {label : String} {inner : Parser Term}
    {before text : List Char} {offset : Nat} {fault : NumberFault}
    (hbefore : before.all isSeparator = true) (htext : ∀ c ∈ text.head?, isSeparator c = false)
    (h : Fails inner (offset + byteLength (opener :: before)) text fault) :
    Fails (bracketed opener closer label inner) offset (opener :: (before ++ text)) fault := by
  refine (reads_char opener offset _).bind_fails (Fails.commit ?_)
  refine (Reads.bind_pure (reads_run hbefore htext _)).bind_fails (Fails.bind ?_ _)
  simpa [Nat.add_assoc] using h

/-- The parts of a chain as `joined` meets them, up to one in front of which reading fails. -/
inductive FailsChain (part : Parser Term) (letters : List Char) (fault : NumberFault)
    (offset : Nat) : List Char → Prop where
  | first {text : List Char} (fails : Fails part offset text fault) :
      FailsChain part letters fault offset text
  | later {first more : List Char} {t : Term} (reads : Reads part offset first more t)
      (fails : FailsAmong (do connective letters; commit part) fault (offset + byteLength first) more) :
      FailsChain part letters fault offset (first ++ more)

theorem FailsChain.fails {part : Parser Term} {letters : List Char} {fault : NumberFault}
    {offset : Nat} {text : List Char} (h : FailsChain part letters fault offset text)
    (wrap : List Term → Term) : Fails (joined letters wrap part) offset text fault := by
  cases h with
  | first fails => exact fails.bind _
  | later reads fails => exact reads.bind_fails (fails.many.bind _)

theorem FailsChain.behind {part : Parser Term} {letters : List Char} {fault : NumberFault}
    {offset : Nat} {joint text : List Char} (hjoint : Reads (connective letters) offset joint text ())
    (hne : joint ≠ []) (h : FailsChain part letters fault (offset + byteLength joint) text) :
    FailsAmong (do connective letters; commit part) fault offset (joint ++ text) := by
  cases h with
  | first fails => exact .now (by simp [hne]) (hjoint.bind_fails fails.commit)
  | later reads fails =>
      rw [← List.append_assoc]
      refine .later (hjoint.bind reads.commit) (by simp [hne]) ?_
      simpa [Nat.add_assoc] using fails

section Derivations

variable {operators : OperatorTable} {fault : NumberFault}

mutual
theorem Chain.failsChain {level : Level} : ∀ (chain : Chain level),
    chain.WellFormed operators → firstFault chain.literals = some fault →
    ∀ fuel, chain.depth ≤ fuel → ∀ rest, level.Follows rest → ∀ offset,
      FailsChain (level.part operators (expression operators fuel)) level.letters fault offset
        (chain.chars ++ rest)
  | .last part, hwell, hfault, fuel, hdepth, rest, hrest, offset =>
      .first (part.fails hwell hfault fuel hdepth rest hrest.1 offset)
  | .cons part before after more, hwell, hfault, fuel, hdepth, rest, hrest, offset => by
      simp only [Chain.depth, Nat.max_le] at hdepth
      obtain ⟨hpartWell, hbefore, hafter, hmoreWell⟩ := hwell
      have hfollows := partFollows_letters hbefore level (after ++ (more.chars ++ rest))
      have htext : (Chain.cons part before after more).chars ++ rest =
          part.chars ++ (before ++ (level.letters ++ (after ++ (more.chars ++ rest)))) := by
        simp [Chain.chars]
      rw [htext]
      -- If the part has no such number it is read, and the failure stands behind the connective.
      rcases firstFault_append part.literals more.literals hfault with hfound | ⟨hkept, hfound⟩
      · exact .first (part.fails hpartWell hfound fuel hdepth.1 _ hfollows offset)
      · rw [firstFault_eq_none, ← part.representable_iff] at hkept
        refine .later (part.reads hpartWell hkept fuel hdepth.1 _ hfollows offset) ?_
        have hjoint : Reads (connective level.letters) (offset + byteLength part.chars)
            (before ++ (level.letters ++ after)) (more.chars ++ rest) () :=
          reads_connective hbefore hafter (Chain.head_not_separator hmoreWell rest) _
        have hbehind := FailsChain.behind hjoint (by simp [hbefore.1])
          (more.failsChain hmoreWell hfound fuel hdepth.2 rest hrest _)
        simpa using hbehind

theorem Part.fails {level : Level} : ∀ (part : Part level),
    part.WellFormed operators → firstFault part.literals = some fault →
    ∀ fuel, part.depth ≤ fuel → ∀ rest, level.PartFollows rest → ∀ offset,
      Fails (level.part operators (expression operators fuel)) offset (part.chars ++ rest) fault
  | .conjunction chain, hwell, hfault, fuel, hdepth, rest, hrest, offset =>
      (chain.failsChain hwell hfault fuel hdepth rest hrest offset).fails _
  | .parentheses before inner after, hwell, hfault, fuel, hdepth, rest, hrest, offset => by
      obtain ⟨hbefore, hinnerWell, hafter⟩ := hwell
      cases fuel with
      | zero => exact absurd hdepth (Nat.not_succ_le_zero _)
      | succ fuel =>
          have hinner := (inner.failsChain hinnerWell hfault fuel (Nat.le_of_succ_le_succ hdepth)
            (after ++ ')' :: rest) (follows_end hafter (by simp [Nesting.isCloser]))
            (offset + byteLength ('(' :: before))).fails Level.any.wrap
          have htext : (Part.parentheses before inner after).chars ++ rest =
              '(' :: (before ++ (inner.chars ++ (after ++ ')' :: rest))) := by
            simp [Part.chars]
          rw [htext]
          exact (fails_bracketed hbefore (Chain.head_not_separator hinnerWell _) hinner).either _
  | .path head steps ending, hwell, hfault, fuel, hdepth, rest, hrest, offset => by
      obtain ⟨hhead, hstepsWell, hendingWell⟩ := hwell
      have hcloses := closesPath_ending hendingWell hrest
      have hname := reads_name hhead (steps_head steps hcloses) offset
      have htext : (Part.path head steps ending).chars ++ rest =
          head ++ (steps.chars ++ (ending.elim [] EndingSpelling.chars ++ rest)) := by
        simp [Part.chars]
      have hparts : Fails (pathParts operators (expression operators fuel)) offset
          (head ++ (steps.chars ++ (ending.elim [] EndingSpelling.chars ++ rest))) fault := by
        apply hname.bind_fails
        rcases firstFault_append steps.literals _ hfault with hfound | ⟨hkept, hfound⟩
        · exact (steps.failsAmong hstepsWell hfound fuel hdepth _ hcloses _).many.bind _
        · rw [firstFault_eq_none, ← steps.representable_iff] at hkept
          refine (steps.repeats hstepsWell hkept fuel hdepth _ hcloses _).reads.bind_fails ?_
          cases ending with
          | none => cases hfound
          | some e => exact (fails_ending (hendingWell e rfl) hfound hrest _).optional.bind _
      have hparenthesis : (head ++ (steps.chars ++ (ending.elim [] EndingSpelling.chars ++ rest))).head? ≠
          some '(' :=
        head?_ne_of_class (head_isRun hhead) (by decide)
      rw [htext]
      exact Refuses.either_fails ((refuses_char hparenthesis offset).bind _) (hparts.spanned.bind _)

theorem Steps.failsAmong : ∀ (steps : Steps),
    steps.WellFormed operators → firstFault steps.literals = some fault →
    ∀ fuel, steps.depth ≤ fuel → ∀ rest, ClosesPath rest → ∀ offset,
      FailsAmong (pathStep (expression operators fuel)) fault offset (steps.chars ++ rest)
  | .done, _, hfault, _, _, _, _, _ => by cases hfault
  | .segment name more, hwell, hfault, fuel, hdepth, rest, hrest, offset => by
      have hmore := more.failsAmong hwell.2 hfault fuel hdepth rest hrest
        (offset + byteLength ('.' :: name))
      rw [Steps.chars, ← List.cons_append, List.append_assoc]
      exact .later (reads_segment hwell.1 (steps_head more hrest) _ offset) (by simp) hmore
  | .group before inner after more, hwell, hfault, fuel, hdepth, rest, hrest, offset => by
      obtain ⟨hbefore, hinnerWell, hafter, hmoreWell⟩ := hwell
      simp only [Steps.depth, Nat.max_le] at hdepth
      cases fuel with
      | zero => exact absurd hdepth.1 (Nat.not_succ_le_zero _)
      | succ fuel =>
          have hfollows : Level.any.Follows (after ++ ']' :: (more.chars ++ rest)) :=
            follows_end hafter (by simp [Nesting.isCloser])
          have hhead := Chain.head_not_separator hinnerWell (after ++ ']' :: (more.chars ++ rest))
          have hinner := Nat.le_of_succ_le_succ hdepth.1
          rcases firstFault_append inner.literals more.literals hfault with hfound | ⟨hkept, hfound⟩
          · have htext : (Steps.group before inner after more).chars ++ rest =
                '[' :: (before ++ (inner.chars ++ (after ++ ']' :: (more.chars ++ rest)))) := by
              simp [Steps.chars]
            rw [htext]
            refine .now (by simp) (Refuses.either_fails ((refuses_char (by simp) offset).bind _) ?_)
            have hfails := (inner.failsChain hinnerWell hfound fuel hinner _ hfollows
              (offset + byteLength ('[' :: before))).fails Level.any.wrap
            exact Fails.bind (fails_bracketed hbefore hhead hfails) _
          · have htext : (Steps.group before inner after more).chars ++ rest =
                ('[' :: (before ++ (inner.chars ++ (after ++ [']'])))) ++ (more.chars ++ rest) := by
              simp [Steps.chars]
            rw [htext]
            rw [firstFault_eq_none, ← inner.representable_iff] at hkept
            have hread := (inner.readsChain hinnerWell hkept fuel hinner _ hfollows
              (offset + byteLength ('[' :: before))).reads
            exact .later (reads_group hbefore hafter hhead hread) (by simp)
              (more.failsAmong hmoreWell hfound (fuel + 1) hdepth.2 rest hrest _)
end

end Derivations

/-- A text with a derivation is refused for the first of its numbers that cannot be kept. -/
theorem Derivation.parse_eq_error {operators : OperatorTable} {d : Derivation}
    (hwell : d.WellFormed operators) {fault : NumberFault}
    (hfault : firstFault d.expression.literals = some fault) {source : String}
    (hsource : d.chars = source.toList) :
    ∃ span, Term.parse operators source = .error ⟨.number fault, span⟩ := by
  obtain ⟨hbefore, hexpression, hafter⟩ := hwell
  have hchain := (d.expression.failsChain hexpression hfault source.length
    (depth_le_length hsource) (d.after ++ []) (follows_end hafter (by simp))
    (0 + byteLength d.before)).fails Level.any.wrap
  rw [List.append_nil] at hchain
  have hread : Fails (filterText operators (source.length + 1)) 0 d.chars fault :=
    (Reads.bind_pure (reads_run hbefore (Chain.head_not_separator hexpression _) 0)).bind_fails
      (Fails.bind hchain _)
  obtain ⟨stop, hstop, hnumber⟩ := hread
  rw [hsource] at hstop
  refine ⟨⟨stop.place.offset, stop.place.offset + byteLength fault.text.toList⟩, ?_⟩
  simp only [Term.parse, Parser.parse, Cursor.start, hstop, Stop.fault, hnumber]

end Grammar

end RequestQuery
